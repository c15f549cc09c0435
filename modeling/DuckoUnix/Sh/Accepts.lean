import Mathlib.Data.List.DropRight
import Mathlib.Data.List.Forall2
import Mathlib.Data.List.TakeWhile
import DuckoUnix.Sh.Grammar

/-!
# The parser accepts its grammar

`gettoken` and `peek` see the first token of the line (`gettoken_cons`, `peek_eq`), so each parser
can be followed token by token. Where the line goes on with what a derivation yields, and the token
after it does not belong to it (`Follow`), the parser for it returns its tree (`Line.gives`).
-/

namespace DuckoUnix.Sh

open Lib

variable {s s₀ q eq r : Ptr} {t : Token} {ts : List Token} {k : ℕ}

/-! ## Tokens -/

theorem tokens_of_none (h : next s = none) : tokens s = [] := by
  rw [tokens]
  split
  · rfl
  · simp_all

theorem tokens_of_some (h : next s = some (t, r)) : tokens s = t :: tokens r := by
  rw [tokens]
  split
  · simp_all
  · simp_all

theorem next_of_tokens (h : tokens s = t :: ts) : ∃ r, next s = some (t, r) ∧ tokens r = ts := by
  cases hn : next s with
  | none => simp [tokens_of_none hn] at h
  | some p =>
    obtain ⟨t', r⟩ := p
    rw [tokens_of_some hn, List.cons.injEq] at h
    exact ⟨r, by rw [h.1], h.2⟩

theorem next_of_nil (h : tokens s = []) : next s = none := by
  cases hn : next s with
  | none => rfl
  | some p => simp [tokens_of_some hn] at h

theorem skip_head {c : Char} {l : Ptr} (h : skip s = c :: l) : whitespace.contains c = false := by
  have := List.head?_dropWhile_not (fun c => whitespace.contains c) s
  rw [show s.dropWhile _ = c :: l from h] at this
  simpa using this

theorem skip_skip (s : Ptr) : skip (skip s) = skip s := List.dropWhile_idempotent _ _

theorem skip_suffix (s : Ptr) : skip s <:+ s := List.dropWhile_suffix _

@[simp] theorem tokens_skip (s : Ptr) : tokens (skip s) = tokens s := by
  have hnext : next (skip s) = next s := by rw [next, next, skip_skip]
  cases hn : next s with
  | none => rw [tokens_of_none hn, tokens_of_none (hnext.trans hn)]
  | some p => rw [tokens_of_some hn, tokens_of_some (hnext.trans hn)]

/-- What `gettoken` returns for a token. -/
def Token.code : Token → Char
  | .lt => '<'
  | .gt => '>'
  | .app => '+'
  | .bar => '|'
  | .amp => '&'
  | .semi => ';'
  | .lpar => '('
  | .rpar => ')'
  | .word _ => 'a'

/-- The symbol a token starts with, if it does with one. -/
def Token.lead : Token → Char
  | .app => '>'
  | t => t.code

/-- `q` and `eq` are the start and the end of the word `w`. -/
def Spans (q eq : Ptr) (w : List Char) : Prop :=
  q = w ++ eq ∧ (∀ c ∈ w, isWord c = true) ∧ ∀ c ∈ eq.head?, isWord c = false

theorem symbol_of_isWord {c : Char} (h : symbol c = none) (hgt : c ≠ '>') :
    symbols.contains c = false := by
  unfold symbol at h
  split at h <;> simp_all [symbols]

theorem gettoken_end (h : next s = none) : gettoken s = (NUL, [], [], []) := by
  have hs : skip s = [] := by
    unfold next at h
    split at h
    · assumption
    · split at h
      · split at h <;> cases h
      · split at h <;> cases h
  rw [gettoken, hs]
  rfl

/-- `gettoken` returns the first token, and the end of it is where the rest of the line starts. -/
theorem gettoken_of_next (h : next s = some (t, r)) :
    ∃ q, gettoken s = (t.code, q, r, skip r) ∧ q <:+ s ∧ r <:+ q ∧
      ∀ w, t = .word w → Spans q r w := by
  have hscan : scan (skip s) = (t.code, r) ∧ r <:+ skip s ∧
      ∀ w, t = .word w → Spans (skip s) r w := by
    unfold next at h
    split at h
    · cases h
    · rename_i c l hs
      rw [hs]
      split at h
      · -- one or two `>`
        rename_i hc
        subst hc
        split at h
        · cases h
          exact ⟨by simp [scan, Token.code], ⟨['>', '>'], rfl⟩, by simp⟩
        · rename_i hne
          cases h
          exact ⟨by simp [scan, Token.code], ⟨['>'], rfl⟩, by simp⟩
      · rename_i hgt
        split at h
        · rename_i t' hsym
          cases h
          unfold symbol at hsym
          split at hsym <;> cases hsym <;>
            exact ⟨by simp [scan, Token.code], List.suffix_cons _ _, by simp⟩
        · -- a word
          rename_i hsym
          cases h
          have hnot := symbol_of_isWord hsym hgt
          have hword : isWord c = true := by
            rw [isWord, skip_head hs, hnot]
            rfl
          refine ⟨?_, (List.dropWhile_suffix _).trans (List.suffix_cons _ _), ?_⟩
          · simp only [symbols, List.contains_cons, List.contains_nil, Bool.or_eq_false_iff,
              beq_eq_false_iff_ne] at hnot
            simp [scan, hnot, hword, Token.code]
          · rintro w ⟨⟩
            refine ⟨?_, ?_, ?_⟩
            · simp
            · intro d hd
              rcases List.mem_cons.mp hd with rfl | hd
              · exact hword
              · exact List.mem_takeWhile_imp hd
            · have := List.head?_dropWhile_not isWord l
              intro d hd
              rw [Option.mem_def] at hd
              simpa [hd] using this
  refine ⟨skip s, ?_, skip_suffix s, hscan.2.1, hscan.2.2⟩
  simp [gettoken, hscan.1]

theorem next_lead {c : Char} {l : Ptr} (hs : skip s = c :: l) :
    ∃ t r, next s = some (t, r) ∧ (t.lead = c ∨ (∃ w, t = .word w) ∧ c ∉ symbols) := by
  unfold next
  rw [hs]
  dsimp only
  split
  · rename_i hc
    subst hc
    split
    · exact ⟨_, _, rfl, .inl rfl⟩
    · exact ⟨_, _, rfl, .inl rfl⟩
  · rename_i hgt
    split
    · rename_i t hsym
      unfold symbol at hsym
      split at hsym <;> cases hsym <;> exact ⟨_, _, rfl, .inl rfl⟩
    · rename_i hsym
      exact ⟨_, _, rfl, .inr ⟨⟨_, rfl⟩, by simpa using symbol_of_isWord hsym hgt⟩⟩

/-- The first token starts with one of the symbols. -/
def starts (toks : List Char) (ts : List Token) : Bool :=
  ts.head?.any fun t => toks.contains t.lead

/-- `peek` tells whether the next token starts with one of the symbols. -/
theorem peek_eq {toks : List Char} (h : toks.all symbols.contains = true) :
    peek s toks = (starts toks (tokens s), skip s) := by
  cases hs : skip s with
  | nil =>
    have hn : next s = none := by rw [next, hs]
    rw [peek, hs, tokens_of_none hn]
    rfl
  | cons c l =>
    obtain ⟨t, r, hn, hlead⟩ := next_lead hs
    rw [peek, hs, tokens_of_some hn]
    suffices toks.contains c = toks.contains t.lead by simpa [starts] using this
    rcases hlead with hlead | ⟨⟨w, rfl⟩, hc⟩
    · rw [hlead]
    · have h : ∀ c ∈ toks, c ∈ symbols := by simpa using h
      have h₁ : c ∉ toks := fun hm => hc (h c hm)
      have h₂ : (Token.word w).lead ∉ toks := fun hm =>
        absurd (h _ hm) (by simp [Token.lead, Token.code, symbols])
      simp [h₁, h₂]

theorem gettoken_cons (h : tokens s = t :: ts) :
    ∃ q eq s', gettoken s = (t.code, q, eq, s') ∧ tokens s' = ts ∧ s' <:+ s ∧ q <:+ s ∧
      ∀ w, t = .word w → Spans q eq w := by
  obtain ⟨r, hn, hr⟩ := next_of_tokens h
  obtain ⟨q, hg, hq, hrq, hw⟩ := gettoken_of_next hn
  exact ⟨q, r, skip r, hg, by rw [tokens_skip, hr], (skip_suffix r).trans (hrq.trans hq), hq, hw⟩

theorem gettoken_nil (h : tokens s = []) : gettoken s = (NUL, [], [], []) :=
  gettoken_end (next_of_nil h)

/-! ## The tree of a derivation -/

/-- `q` and `eq` point to the word `w` of the line `s₀`. -/
def WordAt (s₀ q eq : Ptr) (w : List Char) : Prop := q <:+ s₀ ∧ Spans q eq w

/-- The pointers of the tree in the line `s₀` are to the strings of `t`. -/
inductive Cmd.Shows (s₀ : Ptr) : Cmd → Tree → Prop
  | exec {argv : List (Ptr × Ptr)} {ws : List (List Char)}
      (h : List.Forall₂ (fun arg w => WordAt s₀ arg.1 arg.2 w) argv ws) :
      Shows s₀ (.exec argv) (.exec ws)
  | redir {cmd : Cmd} {t : Tree} {q eq : Ptr} {w : List Char} {mode fd : ℕ}
      (h : Shows s₀ cmd t) (hw : WordAt s₀ q eq w) :
      Shows s₀ (.redir cmd q eq mode fd) (.redir t w mode fd)
  | pipe {a b : Cmd} {t u : Tree} (ha : Shows s₀ a t) (hb : Shows s₀ b u) :
      Shows s₀ (.pipe a b) (.pipe t u)
  | list {a b : Cmd} {t u : Tree} (ha : Shows s₀ a t) (hb : Shows s₀ b u) :
      Shows s₀ (.list a b) (.list t u)
  | back {cmd : Cmd} {t : Tree} (h : Shows s₀ cmd t) : Shows s₀ (.back cmd) (.back t)

/-- A parser has returned the tree `t`, with the tokens `ts` to come. -/
def Gives (s₀ : Ptr) (t : Tree) (ts : List Token) (r : Except Halt (Cmd × Ptr)) : Prop :=
  ∃ cmd s, r = .ok (cmd, s) ∧ cmd.Shows s₀ t ∧ tokens s = ts ∧ s <:+ s₀

theorem Tree.redirs_cons (t : Tree) (r : Redir) (rs : List Redir) :
    t.redirs (r :: rs) = (Tree.redir t r.file r.op.mode r.op.fd).redirs rs := rfl

theorem Tree.redirs_append (t : Tree) (rs rs' : List Redir) :
    t.redirs (rs ++ rs') = (t.redirs rs).redirs rs' := List.foldl_append

theorem redirTokens_cons (r : Redir) (rs : List Redir) :
    redirTokens (r :: rs) = r.op.token :: .word r.file :: redirTokens rs := rfl

theorem argTokens_cons (a : Arg) (args : List Arg) :
    argTokens (a :: args) = .word a.word :: (redirTokens a.redirs ++ argTokens args) := rfl

variable {cmd : Cmd} {tree : Tree}

theorem parseredirs_more {w : List Char} (k : ℕ) (cmd : Cmd) (op : Op) (hs : s <:+ s₀)
    (h : tokens s = op.token :: .word w :: ts) :
    ∃ q eq s', parseredirs (k + 1) cmd s = parseredirs k (.redir cmd q eq op.mode op.fd) s' ∧
      tokens s' = ts ∧ s' <:+ s₀ ∧ q <:+ s₀ ∧ Spans q eq w := by
  have h₁ : tokens (skip s) = op.token :: .word w :: ts := by rw [tokens_skip, h]
  obtain ⟨q₁, eq₁, s₁, hg₁, ht₁, hs₁, -, -⟩ := gettoken_cons h₁
  obtain ⟨q, eq, s', hg, ht, hs', hq, hw⟩ := gettoken_cons ht₁
  have hsub := hs₁.trans ((skip_suffix s).trans hs)
  refine ⟨q, eq, s', ?_, ht, hs'.trans hsub, hq.trans hsub, hw w rfl⟩
  rw [parseredirs, peek_eq rfl, h]
  dsimp only
  rw [hg₁]
  dsimp only
  rw [hg]
  cases op <;> rfl

theorem parseredirs_stop (h : starts ['<', '>'] (tokens s) = false) :
    parseredirs (k + 1) cmd s = .ok (cmd, skip s) := by
  rw [parseredirs, peek_eq rfl, h]
  rfl

theorem parseredirs_gives (rs : List Redir) (hs : s <:+ s₀) (hc : cmd.Shows s₀ tree)
    (h : tokens s = redirTokens rs ++ ts) (hstop : starts ['<', '>'] ts = false)
    (hk : (tokens s).length < k) : Gives s₀ (tree.redirs rs) ts (parseredirs k cmd s) := by
  induction rs generalizing s cmd tree k with
  | nil =>
    obtain ⟨k, rfl⟩ := Nat.exists_eq_succ_of_ne_zero (by omega : k ≠ 0)
    have h : tokens s = ts := h
    exact ⟨cmd, skip s, parseredirs_stop (h ▸ hstop), hc, by rw [tokens_skip, h],
      (skip_suffix s).trans hs⟩
  | cons r rs ih =>
    obtain ⟨k, rfl⟩ := Nat.exists_eq_succ_of_ne_zero (by omega : k ≠ 0)
    rw [redirTokens_cons, List.cons_append, List.cons_append] at h
    obtain ⟨q, eq, s', heq, ht, hs', hq, hw⟩ := parseredirs_more k cmd r.op hs h
    rw [heq, Tree.redirs_cons]
    refine ih hs' (.redir hc ⟨hq, hw⟩) ht ?_
    rw [h, List.length_cons, List.length_cons] at hk
    rw [ht]
    omega

/-- A new argument goes to the command under the redirections. -/
theorem Cmd.Shows.addArg {ws : List (List Char)} {w : List Char} {rs : List Redir}
    (hc : cmd.Shows s₀ ((Tree.exec ws).redirs rs)) (hw : WordAt s₀ q eq w) :
    (cmd.addArg q eq).Shows s₀ ((Tree.exec (ws ++ [w])).redirs rs) := by
  induction rs using List.reverseRecOn generalizing cmd with
  | nil =>
    have hc : cmd.Shows s₀ (.exec ws) := hc
    cases hc with
    | exec h => exact .exec (List.rel_append h (.cons hw .nil))
  | append_singleton rs r ih =>
    rw [Tree.redirs_append] at hc ⊢
    have hc : cmd.Shows s₀ (.redir ((Tree.exec ws).redirs rs) r.file r.op.mode r.op.fd) := hc
    cases hc with
    | redir h hw' => exact .redir (ih h) hw'

/-- The token after which `parseexec` ends a simple command. -/
def Ends (ts : List Token) : Prop := ts = [] ∨ starts ['|', ')', '&', ';'] ts = true

theorem Ends.not_redir (h : Ends ts) : starts ['<', '>'] ts = false := by
  rcases h with rfl | h
  · rfl
  · cases ts with
    | nil => rfl
    | cons t ts => cases t <;> simp_all [starts, Token.lead, Token.code]

theorem argTokens_not_redir (args : List Arg) (h : Ends ts) :
    starts ['<', '>'] (argTokens args ++ ts) = false := by
  cases args with
  | nil => exact h.not_redir
  | cons a args => rfl

theorem parseargs_word {w : List Char} (k : ℕ) (cmd : Cmd) (argc : ℕ) (hs : s <:+ s₀)
    (h : tokens s = .word w :: ts) (hargc : argc + 1 < MAXARGS) :
    ∃ q eq s', parseargs (k + 1) cmd argc s =
        (parseredirs k (cmd.addArg q eq) s' >>= fun p => parseargs k p.1 (argc + 1) p.2) ∧
      tokens s' = ts ∧ s' <:+ s₀ ∧ q <:+ s₀ ∧ Spans q eq w := by
  obtain ⟨q, eq, s', hg, ht, hs', hq, hw⟩ := gettoken_cons ((tokens_skip s).trans h)
  have hsub := (skip_suffix s).trans hs
  refine ⟨q, eq, s', ?_, ht, hs'.trans hsub, hq.trans hsub, hw w rfl⟩
  rw [parseargs, peek_eq rfl, h]
  dsimp only
  rw [hg]
  dsimp only
  rw [show (Token.word w).code = 'a' from rfl, if_neg (by simp [starts, Token.lead, Token.code]),
    if_neg (by decide : 'a' ≠ NUL), if_neg (by decide : ¬('a' ≠ 'a')),
    if_neg (by omega : ¬argc + 1 ≥ MAXARGS)]

theorem parseargs_gives (args : List Arg) {ws : List (List Char)} {rs : List Redir} {argc : ℕ}
    (hs : s <:+ s₀) (hc : cmd.Shows s₀ ((Tree.exec ws).redirs rs))
    (h : tokens s = argTokens args ++ ts) (hends : Ends ts) (hargc : argc + args.length < MAXARGS)
    (hk : (tokens s).length < k) :
    Gives s₀ ((Tree.exec (ws ++ args.map Arg.word)).redirs (rs ++ args.flatMap Arg.redirs)) ts
      (parseargs k cmd argc s) := by
  induction args generalizing s cmd ws rs argc k with
  | nil =>
    obtain ⟨k, rfl⟩ := Nat.exists_eq_succ_of_ne_zero (by omega : k ≠ 0)
    have h : tokens s = ts := h
    have hskip : tokens (skip s) = ts := by rw [tokens_skip, h]
    rw [parseargs, peek_eq rfl, h]
    rcases hends with rfl | hends
    · dsimp only
      rw [gettoken_nil hskip]
      exact ⟨cmd, [], rfl, by simpa using hc, tokens_of_none rfl, List.nil_suffix⟩
    · rw [hends]
      exact ⟨cmd, skip s, rfl, by simpa using hc, hskip, (skip_suffix s).trans hs⟩
  | cons a args ih =>
    obtain ⟨k, rfl⟩ := Nat.exists_eq_succ_of_ne_zero (by omega : k ≠ 0)
    rw [argTokens_cons, List.cons_append, List.append_assoc] at h
    rw [List.length_cons] at hargc
    obtain ⟨q, eq, s', hstep, ht, hs', hq, hw⟩ := parseargs_word k cmd argc hs h (by omega)
    rw [h, List.length_cons, ← ht] at hk
    obtain ⟨cmd', s'', heq, hc', ht', hs''⟩ := parseredirs_gives a.redirs hs'
      (hc.addArg ⟨hq, hw⟩) ht (argTokens_not_redir args hends) (by omega : _ < k)
    rw [← Tree.redirs_append] at hc'
    have hlen := congrArg List.length ht
    rw [List.length_append, ← ht'] at hlen
    have hgive : Gives s₀ _ ts (parseargs k cmd' (argc + 1) s'') :=
      ih hs'' hc' ht' (by omega) (by omega)
    rw [hstep, heq, ok_bind]
    simpa using hgive

theorem parsebacks_gives (n : ℕ) (hs : s <:+ s₀) (hc : cmd.Shows s₀ tree)
    (h : tokens s = List.replicate n .amp ++ ts) (hstop : starts ['&'] ts = false)
    (hk : (tokens s).length < k) : Gives s₀ (Tree.back^[n] tree) ts (parsebacks k cmd s) := by
  induction n generalizing s cmd tree k with
  | zero =>
    obtain ⟨k, rfl⟩ := Nat.exists_eq_succ_of_ne_zero (by omega : k ≠ 0)
    have h : tokens s = ts := h
    refine ⟨cmd, skip s, ?_, hc, by rw [tokens_skip, h], (skip_suffix s).trans hs⟩
    rw [parsebacks, peek_eq rfl, h, hstop]
    rfl
  | succ n ih =>
    obtain ⟨k, rfl⟩ := Nat.exists_eq_succ_of_ne_zero (by omega : k ≠ 0)
    rw [List.replicate_succ, List.cons_append] at h
    obtain ⟨q, eq, s', hg, ht, hs', -, -⟩ := gettoken_cons ((tokens_skip s).trans h)
    rw [h, List.length_cons, ← ht] at hk
    rw [parsebacks, peek_eq rfl, h]
    dsimp only
    rw [hg, if_pos (show starts ['&'] (Token.amp :: _) = true from rfl)]
    dsimp only
    exact ih (hs'.trans ((skip_suffix s).trans hs)) (.back hc) ht (by omega)

theorem simple_not_block (rs : List Redir) (args : List Arg) (h : Ends ts) :
    starts ['('] (redirTokens rs ++ (argTokens args ++ ts)) = false := by
  cases rs with
  | cons r rs =>
    rw [redirTokens_cons]
    cases r.op <;> rfl
  | nil =>
    cases args with
    | cons a args => rfl
    | nil =>
      rcases h with rfl | h
      · rfl
      · cases ts with
        | nil => rfl
        | cons t ts => cases t <;> simp_all [starts, Token.lead, Token.code, redirTokens, argTokens]

/-! ## Completeness -/

/-- What may follow a simple command or a block for `parseexec` to end there. -/
def Exec.Follow : Exec → List Token → Prop
  | .block _ _, ts => starts ['<', '>'] ts = false
  | .simple _ _, ts => Ends ts

def Pipe.Follow : Pipe → List Token → Prop
  | .single e, ts => e.Follow ts ∧ starts ['|'] ts = false
  | .bar _ p, ts => p.Follow ts

def Line.Follow : Line → List Token → Prop
  | .single p n, ts => (n = 0 → p.Follow ts) ∧ starts ['&'] ts = false ∧ starts [';'] ts = false
  | .semi _ _ l, ts => l.Follow ts

theorem Exec.follow (e : Exec) (h : Ends ts) : e.Follow ts := by
  cases e with
  | block l rs => exact h.not_redir
  | simple rs args => exact h

theorem Pipe.follow : ∀ (p : Pipe), ts = [] ∨ starts [')', '&', ';'] ts = true → p.Follow ts
  | .single e, h => by
    have hends : Ends ts := by
      rcases h with h | h
      · exact .inl h
      · right
        cases ts with
        | nil => cases h
        | cons t ts => cases t <;> simp_all [starts, Token.lead, Token.code]
    refine ⟨e.follow hends, ?_⟩
    rcases h with rfl | h
    · rfl
    · cases ts with
      | nil => rfl
      | cons t ts => cases t <;> simp_all [starts, Token.lead, Token.code]
  | .bar _ p, h => Pipe.follow p h

theorem Line.follow : ∀ (l : Line), ts = [] ∨ starts [')'] ts = true → l.Follow ts
  | .single p n, h => by
    rcases h with rfl | h
    · exact ⟨fun _ => p.follow (.inl rfl), rfl, rfl⟩
    · cases ts with
      | nil => cases h
      | cons t ts =>
        cases t <;> simp [starts, Token.lead, Token.code] at h
        exact ⟨fun _ => p.follow (.inr rfl), rfl, rfl⟩
  | .semi _ _ l, h => Line.follow l h

mutual

/-- A line that starts with what a derivation yields is parsed as its tree. -/
theorem Line.gives (d : Line) {s : Ptr} {ts : List Token} {k : ℕ} (hs : s <:+ s₀)
    (h : tokens s = d.yield ++ ts) (hsm : d.Small) (hf : d.Follow ts)
    (hk : 4 * (tokens s).length + 4 ≤ k) : Gives s₀ d.tree ts (parseline k s) := by
  obtain ⟨k, rfl⟩ := Nat.exists_eq_succ_of_ne_zero (by omega : k ≠ 0)
  match d with
  | .single p n =>
    rw [Line.yield, List.append_assoc] at h
    have hpf : p.Follow (List.replicate n .amp ++ ts) := by
      cases n with
      | zero => exact hf.1 rfl
      | succ n => exact p.follow (.inr rfl)
    obtain ⟨c₁, s₁, hr₁, hc₁, ht₁, hs₁⟩ := Pipe.gives p hs h hsm hpf (by omega : _ ≤ k)
    have hlen := congrArg List.length h
    rw [List.length_append, ← ht₁] at hlen
    obtain ⟨c₂, s₂, hr₂, hc₂, ht₂, hs₂⟩ :=
      parsebacks_gives n hs₁ hc₁ ht₁ hf.2.1 (by omega : _ < k)
    refine ⟨c₂, skip s₂, ?_, hc₂, by rw [tokens_skip, ht₂], (skip_suffix _).trans hs₂⟩
    rw [parseline, hr₁, ok_bind]
    dsimp only
    rw [hr₂, ok_bind]
    dsimp only
    rw [peek_eq rfl, ht₂, hf.2.2]
    rfl
  | .semi p n l =>
    rw [Line.yield, List.append_assoc, List.append_assoc] at h
    have hpf : p.Follow (List.replicate n .amp ++ (.semi :: l.yield ++ ts)) := by
      cases n with
      | zero => exact p.follow (.inr rfl)
      | succ n => exact p.follow (.inr rfl)
    obtain ⟨c₁, s₁, hr₁, hc₁, ht₁, hs₁⟩ := Pipe.gives p hs h hsm.1 hpf (by omega : _ ≤ k)
    have hlen := congrArg List.length h
    rw [List.length_append, ← ht₁] at hlen
    obtain ⟨c₂, s₂, hr₂, hc₂, ht₂, hs₂⟩ :=
      parsebacks_gives n hs₁ hc₁ ht₁ rfl (by omega : _ < k)
    have hlen₂ := congrArg List.length ht₁
    rw [List.length_append, ← ht₂] at hlen₂
    rw [List.cons_append] at ht₂
    obtain ⟨q, eq, s₃, hg, ht₃, hs₃, -, -⟩ := gettoken_cons ((tokens_skip s₂).trans ht₂)
    rw [ht₂, List.length_cons, ← ht₃] at hlen₂
    have hsub := hs₃.trans ((skip_suffix s₂).trans hs₂)
    obtain ⟨c₄, s₄, hr₄, hc₄, ht₄, hs₄⟩ := Line.gives l hsub ht₃ hsm.2 hf (by omega : _ ≤ k)
    refine ⟨.list c₂ c₄, s₄, ?_, .list hc₂ hc₄, ht₄, hs₄⟩
    rw [parseline, hr₁, ok_bind]
    dsimp only
    rw [hr₂, ok_bind]
    dsimp only
    rw [peek_eq rfl, ht₂, if_pos (show starts [';'] (Token.semi :: _) = true from rfl), hg]
    dsimp only
    rw [hr₄, ok_bind]

theorem Pipe.gives (d : Pipe) {s : Ptr} {ts : List Token} {k : ℕ} (hs : s <:+ s₀)
    (h : tokens s = d.yield ++ ts) (hsm : d.Small) (hf : d.Follow ts)
    (hk : 4 * (tokens s).length + 3 ≤ k) : Gives s₀ d.tree ts (parsepipe k s) := by
  obtain ⟨k, rfl⟩ := Nat.exists_eq_succ_of_ne_zero (by omega : k ≠ 0)
  match d with
  | .single e =>
    obtain ⟨c₁, s₁, hr₁, hc₁, ht₁, hs₁⟩ := Exec.gives e hs h hsm hf.1 (by omega : _ ≤ k)
    refine ⟨c₁, skip s₁, ?_, hc₁, by rw [tokens_skip, ht₁], (skip_suffix _).trans hs₁⟩
    rw [parsepipe, hr₁, ok_bind]
    dsimp only
    rw [peek_eq rfl, ht₁, hf.2]
    rfl
  | .bar e p =>
    rw [Pipe.yield, List.append_assoc, List.cons_append] at h
    obtain ⟨c₁, s₁, hr₁, hc₁, ht₁, hs₁⟩ :=
      Exec.gives e hs h hsm.1 (e.follow (.inr rfl)) (by omega : _ ≤ k)
    obtain ⟨q, eq, s₂, hg, ht₂, hs₂, -, -⟩ := gettoken_cons ((tokens_skip s₁).trans ht₁)
    have hlen := congrArg List.length h
    rw [List.length_append, List.length_cons, ← ht₂] at hlen
    have hsub := hs₂.trans ((skip_suffix s₁).trans hs₁)
    obtain ⟨c₃, s₃, hr₃, hc₃, ht₃, hs₃⟩ := Pipe.gives p hsub ht₂ hsm.2 hf (by omega : _ ≤ k)
    refine ⟨.pipe c₁ c₃, s₃, ?_, .pipe hc₁ hc₃, ht₃, hs₃⟩
    rw [parsepipe, hr₁, ok_bind]
    dsimp only
    rw [peek_eq rfl, ht₁, if_pos (show starts ['|'] (Token.bar :: _) = true from rfl), hg]
    dsimp only
    rw [hr₃, ok_bind]

theorem Exec.gives (d : Exec) {s : Ptr} {ts : List Token} {k : ℕ} (hs : s <:+ s₀)
    (h : tokens s = d.yield ++ ts) (hsm : d.Small) (hf : d.Follow ts)
    (hk : 4 * (tokens s).length + 2 ≤ k) : Gives s₀ d.tree ts (parseexec k s) := by
  obtain ⟨k, rfl⟩ := Nat.exists_eq_succ_of_ne_zero (by omega : k ≠ 0)
  match d with
  | .block l rs =>
    rw [Exec.yield, List.cons_append, List.cons_append, List.append_assoc, List.cons_append] at h
    obtain ⟨k, rfl⟩ := Nat.exists_eq_succ_of_ne_zero (by omega : k ≠ 0)
    have hskip := (tokens_skip s).trans h
    obtain ⟨q, eq, s₁, hg, ht₁, hs₁, -, -⟩ := gettoken_cons ((tokens_skip (skip s)).trans hskip)
    have hlen := congrArg List.length h
    rw [List.length_cons, ← ht₁] at hlen
    have hsub := hs₁.trans ((skip_suffix _).trans ((skip_suffix s).trans hs))
    obtain ⟨c₂, s₂, hr₂, hc₂, ht₂, hs₂⟩ :=
      Line.gives l hsub ht₁ hsm (l.follow (.inr rfl)) (by omega : _ ≤ k)
    have hlen₂ := congrArg List.length ht₁
    obtain ⟨q', eq', s₃, hg', ht₃, hs₃, -, -⟩ := gettoken_cons ((tokens_skip s₂).trans ht₂)
    rw [List.length_append, List.length_cons, ← ht₃] at hlen₂
    obtain ⟨c₄, s₄, hr₄, hgive⟩ := parseredirs_gives rs
      (hs₃.trans ((skip_suffix s₂).trans hs₂)) hc₂ ht₃ hf (by omega : _ < k)
    refine ⟨c₄, s₄, ?_, hgive⟩
    rw [parseexec, peek_eq rfl, h]
    dsimp only
    rw [if_pos (show starts ['('] (Token.lpar :: _) = true from rfl), parseblock,
      peek_eq rfl, hskip]
    dsimp only
    rw [if_pos (show starts ['('] (Token.lpar :: _) = true from rfl), hg]
    dsimp only
    rw [hr₂, ok_bind]
    dsimp only
    rw [peek_eq rfl, ht₂]
    dsimp only
    rw [if_pos (show starts [')'] (Token.rpar :: _) = true from rfl), hg']
    exact hr₄
  | .simple rs args =>
    rw [Exec.yield, List.append_assoc] at h
    have hskip := (tokens_skip s).trans h
    obtain ⟨c₁, s₁, hr₁, hc₁, ht₁, hs₁⟩ := parseredirs_gives rs ((skip_suffix s).trans hs)
      (show Cmd.Shows s₀ (.exec []) (.exec []) from .exec .nil) hskip (argTokens_not_redir args hf)
      (by rw [tokens_skip]; omega : _ < k)
    have hlen := congrArg List.length h
    rw [List.length_append, ← ht₁] at hlen
    obtain ⟨c₂, s₂, hr₂, hgive⟩ := parseargs_gives args hs₁ hc₁ ht₁ hf
      (by rw [Nat.zero_add]; exact hsm) (by omega : _ < k)
    refine ⟨c₂, s₂, ?_, by simpa [Exec.tree] using hgive⟩
    have hpar : starts ['('] (tokens s) = false := h ▸ simple_not_block rs args hf
    rw [parseexec, peek_eq rfl, hpar]
    dsimp only
    rw [if_neg (by decide), hr₁, ok_bind]
    exact hr₂

end

end DuckoUnix.Sh
