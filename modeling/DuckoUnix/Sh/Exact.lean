import DuckoUnix.Sh.Words

/-!
# Everything else panics

With enough fuel each parser either meets a prefix of the line that its part of the grammar
derives, and then returns the tree of it, or panics.
-/

namespace DuckoUnix.Sh

open Lib

variable {s s₀ q eq r : Ptr} {t : Token} {ts : List Token} {k : ℕ} {cmd : Cmd} {tree : Tree}

def Panics {α : Type} (r : Except Halt α) : Prop := ∃ msg, r = .error (.panic msg)

theorem Panics.bind {α β : Type} {r : Except Halt α} {f : α → Except Halt β} (h : Panics r) :
    Panics (r >>= f) := by
  obtain ⟨msg, rfl⟩ := h
  exact ⟨msg, rfl⟩

theorem exists_op (h : starts ['<', '>'] ts = true) : ∃ op : Op, ∃ ts', ts = op.token :: ts' := by
  cases ts with
  | nil => cases h
  | cons t ts =>
    cases t <;> simp [starts, Token.lead, Token.code] at h
    · exact ⟨.input, ts, rfl⟩
    · exact ⟨.output, ts, rfl⟩
    · exact ⟨.append, ts, rfl⟩

theorem parseredirs_panics (op : Op) (h : tokens s = op.token :: ts)
    (hw : ∀ w ts', ts ≠ .word w :: ts') : Panics (parseredirs (k + 1) cmd s) := by
  obtain ⟨q₁, eq₁, s₁, hg₁, ht₁, -⟩ := gettoken_cons ((tokens_skip s).trans h)
  have hne : (gettoken s₁).1 ≠ 'a' := by
    cases ts with
    | nil =>
      rw [gettoken_nil ht₁]
      decide
    | cons t ts =>
      obtain ⟨q, eq, s', hg, -⟩ := gettoken_cons ht₁
      rw [hg]
      intro e
      obtain ⟨w, rfl⟩ := code_eq_word e
      exact hw w ts rfl
  rw [parseredirs, peek_eq rfl, h]
  dsimp only
  rw [hg₁]
  dsimp only
  rw [if_pos (by cases op <;> rfl), if_pos hne]
  exact ⟨_, rfl⟩

theorem parseredirs_outcome (cmd : Cmd) (hs : s <:+ s₀) (hk : (tokens s).length < k) :
    (∃ rs ts, tokens s = redirTokens rs ++ ts ∧ starts ['<', '>'] ts = false) ∨
      Panics (parseredirs k cmd s) := by
  induction k generalizing s cmd with
  | zero => omega
  | succ k ih =>
    cases hst : starts ['<', '>'] (tokens s) with
    | false => exact .inl ⟨[], _, rfl, hst⟩
    | true =>
      obtain ⟨op, ts, h⟩ := exists_op hst
      by_cases hw : ∃ w ts', ts = .word w :: ts'
      · obtain ⟨w, ts, rfl⟩ := hw
        obtain ⟨q, eq, s', heq, ht, hs', -⟩ := parseredirs_more k cmd op hs h
        rw [heq]
        rw [h, List.length_cons, List.length_cons, ← ht] at hk
        rcases ih _ hs' (by omega) with ⟨rs, ts', hrs, hstop⟩ | hp
        · refine .inl ⟨⟨op, w⟩ :: rs, ts', ?_, hstop⟩
          rw [h, redirTokens_cons, ← ht, hrs]
          rfl
        · exact .inr hp
      · push Not at hw
        exact .inr (parseredirs_panics op h hw)

theorem parseargs_outcome {ws : List (List Char)} {rs : List Redir} {argc : ℕ}
    (hs : s <:+ s₀) (hc : cmd.Shows s₀ ((Tree.exec ws).redirs rs)) (hargc : argc < MAXARGS)
    (hk : (tokens s).length < k) :
    (∃ args ts, tokens s = argTokens args ++ ts ∧ Ends ts ∧ argc + args.length < MAXARGS) ∨
      Panics (parseargs k cmd argc s) := by
  induction k generalizing s cmd ws rs argc with
  | zero => omega
  | succ k ih =>
    cases hst : starts ['|', ')', '&', ';'] (tokens s) with
    | true => exact .inl ⟨[], _, rfl, .inr hst, hargc⟩
    | false =>
      cases h : tokens s with
      | nil => exact .inl ⟨[], [], rfl, .inl rfl, hargc⟩
      | cons t ts =>
        by_cases hw : ∃ w, t = .word w
        · obtain ⟨w, rfl⟩ := hw
          by_cases hmax : argc + 1 < MAXARGS
          · obtain ⟨q, eq, s', heq, ht, hs', hq, hw⟩ := parseargs_word k cmd argc hs h hmax
            rw [h, List.length_cons, ← ht] at hk
            have hc' := hc.addArg ⟨hq, hw⟩
            rw [heq]
            rcases parseredirs_outcome (k := k) (cmd.addArg q eq) hs' (by omega) with
              ⟨rs', ts', hrs, hstop⟩ | hp
            · obtain ⟨c₁, s₁, hr₁, hc₁, ht₁, hs₁⟩ :=
                parseredirs_gives rs' hs' hc' hrs hstop (by omega : _ < k)
              rw [← Tree.redirs_append] at hc₁
              have hlen := congrArg List.length hrs
              rw [List.length_append, ← ht₁] at hlen
              rw [hr₁, ok_bind]
              rcases ih hs₁ hc₁ hmax (by omega) with ⟨args, ts'', hargs, hends, hlt⟩ | hp
              · refine .inl ⟨⟨w, rs'⟩ :: args, ts'', ?_, hends, ?_⟩
                · rw [argTokens_cons, ← ht, hrs, ← ht₁, hargs]
                  simp
                · rw [List.length_cons]
                  omega
              · exact .inr hp
            · exact .inr hp.bind
          · obtain ⟨q, eq, s', hg, -⟩ := gettoken_cons ((tokens_skip s).trans h)
            right
            rw [parseargs, peek_eq rfl, hst]
            dsimp only
            rw [hg]
            dsimp only
            rw [show (Token.word w).code = 'a' from rfl, if_neg (by decide),
              if_neg (by decide : 'a' ≠ NUL), if_neg (by decide : ¬('a' ≠ 'a')),
              if_pos (by omega : argc + 1 ≥ MAXARGS)]
            exact ⟨_, rfl⟩
        · obtain ⟨q, eq, s', hg, -⟩ := gettoken_cons ((tokens_skip s).trans h)
          right
          rw [parseargs, peek_eq rfl, hst]
          dsimp only
          rw [hg]
          dsimp only
          rw [if_neg (by decide), if_neg (by cases t <;> simp [Token.code, NUL]),
            if_pos fun e => hw (code_eq_word e)]
          exact ⟨_, rfl⟩

theorem exists_backs (ts : List Token) :
    ∃ n ts', ts = List.replicate n .amp ++ ts' ∧ starts ['&'] ts' = false := by
  induction ts with
  | nil => exact ⟨0, [], rfl, rfl⟩
  | cons t ts ih =>
    by_cases ht : t = .amp
    · obtain ⟨n, ts', rfl, hst⟩ := ih
      exact ⟨n + 1, ts', by rw [ht]; rfl, hst⟩
    · refine ⟨0, t :: ts, rfl, ?_⟩
      cases t <;> simp_all [starts, Token.lead, Token.code]

theorem eq_cons_of_starts {c : Char} (ht : ∀ t' : Token, t'.lead = c → t' = t)
    (h : starts [c] ts = true) : ∃ ts', ts = t :: ts' := by
  cases ts with
  | nil => cases h
  | cons t' ts => exact ⟨ts, by rw [ht t' (by simpa [starts] using h)]⟩

/-- What the three parsers do with `k` rounds of fuel. -/
structure Outcomes (s₀ : Ptr) (k : ℕ) : Prop where
  line : ∀ s, s <:+ s₀ → 4 * (tokens s).length + 4 ≤ k →
    (∃ (d : Line) (ts : List Token), tokens s = d.yield ++ ts ∧ d.Small ∧ d.Follow ts) ∨
      Panics (parseline k s)
  pipe : ∀ s, s <:+ s₀ → 4 * (tokens s).length + 3 ≤ k →
    (∃ (d : Pipe) (ts : List Token), tokens s = d.yield ++ ts ∧ d.Small ∧ d.Follow ts) ∨
      Panics (parsepipe k s)
  exec : ∀ s, s <:+ s₀ → 4 * (tokens s).length + 2 ≤ k →
    (∃ (d : Exec) (ts : List Token), tokens s = d.yield ++ ts ∧ d.Small ∧ d.Follow ts) ∨
      Panics (parseexec k s)

theorem parseline_outcome (ih : Outcomes s₀ k) (hs : s <:+ s₀)
    (hk : 4 * (tokens s).length + 4 ≤ k + 1) :
    (∃ (d : Line) (ts : List Token), tokens s = d.yield ++ ts ∧ d.Small ∧ d.Follow ts) ∨
      Panics (parseline (k + 1) s) := by
  rw [parseline]
  obtain ⟨p, ts₁, h₁, hsm₁, hf₁⟩ | hp := ih.pipe s hs (by omega)
  swap
  · exact .inr hp.bind
  obtain ⟨c₁, s₁, hr₁, hc₁, ht₁, hs₁⟩ := p.gives hs h₁ hsm₁ hf₁ (by omega : _ ≤ k)
  have hlen₁ := congrArg List.length h₁
  rw [List.length_append, ← ht₁] at hlen₁
  obtain ⟨n, ts₂, rfl, hamp⟩ := exists_backs ts₁
  obtain ⟨c₂, s₂, hr₂, hc₂, ht₂, hs₂⟩ := parsebacks_gives n hs₁ hc₁ ht₁ hamp (by omega : _ < k)
  have hlen₂ := congrArg List.length ht₁
  rw [List.length_append, ← ht₂] at hlen₂
  rw [hr₁, ok_bind]
  dsimp only
  rw [hr₂, ok_bind]
  dsimp only
  rw [peek_eq rfl, ht₂]
  dsimp only
  cases hsemi : starts [';'] ts₂ with
  | false =>
    refine .inl ⟨.single p n, ts₂, by rw [h₁, Line.yield, List.append_assoc], hsm₁, ?_, hamp, hsemi⟩
    rintro rfl
    exact hf₁
  | true =>
    obtain ⟨ts₃, rfl⟩ := eq_cons_of_starts (t := .semi) (by
      intro t' h'
      cases t' <;> simp_all [Token.lead, Token.code]) hsemi
    obtain ⟨q, eq, s₃, hg, ht₃, hs₃, -⟩ := gettoken_cons ((tokens_skip s₂).trans ht₂)
    rw [ht₂, List.length_cons, ← ht₃] at hlen₂
    rw [if_pos rfl, hg]
    dsimp only
    rcases ih.line s₃ (hs₃.trans ((skip_suffix s₂).trans hs₂)) (by omega) with
      ⟨l, ts₄, h₄, hsm₄, hf₄⟩ | hp
    · refine .inl ⟨.semi p n l, ts₄, ?_, ⟨hsm₁, hsm₄⟩, hf₄⟩
      rw [h₁, ← ht₃, h₄, Line.yield]
      simp
    · exact .inr hp.bind

theorem parsepipe_outcome (ih : Outcomes s₀ k) (hs : s <:+ s₀)
    (hk : 4 * (tokens s).length + 3 ≤ k + 1) :
    (∃ (d : Pipe) (ts : List Token), tokens s = d.yield ++ ts ∧ d.Small ∧ d.Follow ts) ∨
      Panics (parsepipe (k + 1) s) := by
  rw [parsepipe]
  obtain ⟨e, ts₁, h₁, hsm₁, hf₁⟩ | hp := ih.exec s hs (by omega)
  swap
  · exact .inr hp.bind
  obtain ⟨c₁, s₁, hr₁, hc₁, ht₁, hs₁⟩ := e.gives hs h₁ hsm₁ hf₁ (by omega : _ ≤ k)
  have hlen₁ := congrArg List.length h₁
  rw [List.length_append, ← ht₁] at hlen₁
  rw [hr₁, ok_bind]
  dsimp only
  rw [peek_eq rfl, ht₁]
  dsimp only
  cases hbar : starts ['|'] ts₁ with
  | false => exact .inl ⟨.single e, ts₁, h₁, hsm₁, hf₁, hbar⟩
  | true =>
    obtain ⟨ts₂, rfl⟩ := eq_cons_of_starts (t := .bar) (by
      intro t' h'
      cases t' <;> simp_all [Token.lead, Token.code]) hbar
    obtain ⟨q, eq, s₂, hg, ht₂, hs₂, -⟩ := gettoken_cons ((tokens_skip s₁).trans ht₁)
    rw [ht₁, List.length_cons, ← ht₂] at hlen₁
    rw [if_pos rfl, hg]
    dsimp only
    rcases ih.pipe s₂ (hs₂.trans ((skip_suffix s₁).trans hs₁)) (by omega) with
      ⟨p, ts₃, h₃, hsm₃, hf₃⟩ | hp
    · refine .inl ⟨.bar e p, ts₃, ?_, ⟨hsm₁, hsm₃⟩, hf₃⟩
      rw [h₁, ← ht₂, h₃, Pipe.yield]
      simp
    · exact .inr hp.bind

theorem parseexec_outcome (ih : ∀ j ≤ k, Outcomes s₀ j) (hs : s <:+ s₀)
    (hk : 4 * (tokens s).length + 2 ≤ k + 1) :
    (∃ (d : Exec) (ts : List Token), tokens s = d.yield ++ ts ∧ d.Small ∧ d.Follow ts) ∨
      Panics (parseexec (k + 1) s) := by
  rw [parseexec, peek_eq rfl]
  dsimp only
  have hsub := (skip_suffix s).trans hs
  cases hpar : starts ['('] (tokens s) with
  | false =>
    rw [if_neg (by decide)]
    have hlen : (tokens (skip s)).length < k := by
      rw [tokens_skip]
      omega
    obtain ⟨rs, ts₁, h₁, hst⟩ | hp := parseredirs_outcome (.exec []) hsub hlen
    swap
    · exact .inr hp.bind
    obtain ⟨c₁, s₁, hr₁, hc₁, ht₁, hs₁⟩ := parseredirs_gives rs hsub
      (show Cmd.Shows s₀ (.exec []) (.exec []) from .exec .nil) h₁ hst hlen
    have hlen₁ := congrArg List.length h₁
    rw [List.length_append, ← ht₁] at hlen₁
    rw [hr₁, ok_bind]
    rw [tokens_skip] at h₁
    rcases parseargs_outcome hs₁ hc₁ (by decide : 0 < MAXARGS) (by omega : _ < k) with
      ⟨args, ts₂, h₂, hends, hmax⟩ | hp
    · refine .inl ⟨.simple rs args, ts₂, ?_, by simpa [Exec.Small] using hmax, hends⟩
      rw [h₁, ← ht₁, h₂, Exec.yield, List.append_assoc]
    · exact .inr hp
  | true =>
    obtain ⟨ts₁, h₁⟩ := eq_cons_of_starts (t := .lpar) (by
      intro t' h'
      cases t' <;> simp_all [Token.lead, Token.code]) hpar
    rw [h₁, List.length_cons] at hk
    obtain ⟨k, rfl⟩ := Nat.exists_eq_succ_of_ne_zero (by omega : k ≠ 0)
    have hskip := (tokens_skip s).trans h₁
    obtain ⟨q, eq, s₁, hg, ht₁, hs₁, -⟩ := gettoken_cons ((tokens_skip (skip s)).trans hskip)
    rw [← ht₁] at hk
    have hsub₁ := hs₁.trans ((skip_suffix _).trans hsub)
    rw [if_pos rfl, parseblock, peek_eq rfl, hskip]
    dsimp only
    rw [if_pos (show starts ['('] (Token.lpar :: _) = true from rfl), hg]
    dsimp only
    obtain ⟨l, ts₂, h₂, hsm, hf⟩ | hp := (ih k (by omega)).line s₁ hsub₁ (by omega)
    swap
    · exact .inr hp.bind
    obtain ⟨c₂, s₂, hr₂, hc₂, ht₂, hs₂⟩ := l.gives hsub₁ h₂ hsm hf (by omega : _ ≤ k)
    have hlen₂ := congrArg List.length h₂
    rw [List.length_append, ← ht₂] at hlen₂
    rw [hr₂, ok_bind]
    dsimp only
    rw [peek_eq rfl, ht₂]
    dsimp only
    cases hclose : starts [')'] ts₂ with
    | false => exact .inr ⟨_, rfl⟩
    | true =>
      obtain ⟨ts₃, rfl⟩ := eq_cons_of_starts (t := .rpar) (by
        intro t' h'
        cases t' <;> simp_all [Token.lead, Token.code]) hclose
      obtain ⟨q', eq', s₃, hg', ht₃, hs₃, -⟩ := gettoken_cons ((tokens_skip s₂).trans ht₂)
      rw [ht₂, List.length_cons, ← ht₃] at hlen₂
      rw [if_pos rfl, hg']
      dsimp only
      rcases parseredirs_outcome c₂ (hs₃.trans ((skip_suffix s₂).trans hs₂))
        (by omega : _ < k) with ⟨rs, ts₄, h₄, hst⟩ | hp
      · refine .inl ⟨.block l rs, ts₄, ?_, hsm, hst⟩
        rw [h₁, ← ht₁, h₂, ← ht₃, h₄, Exec.yield]
        simp
      · exact .inr hp

theorem outcomes (s₀ : Ptr) (k : ℕ) : Outcomes s₀ k := by
  induction k using Nat.strong_induction_on with
  | h k ih =>
    cases k with
    | zero => exact ⟨fun _ _ h => by omega, fun _ _ h => by omega, fun _ _ h => by omega⟩
    | succ k =>
      exact ⟨fun s hs hk => parseline_outcome (ih k (by omega)) hs hk,
        fun s hs hk => parsepipe_outcome (ih k (by omega)) hs hk,
        fun s hs hk => parseexec_outcome (fun j hj => ih j (by omega)) hs hk⟩

/-! ## The strings -/

/-- The tree shows its strings once they end where they should. -/
theorem Cmd.Shows.read {n : ℕ} {buf : ℕ → Char} (h : cmd.Shows s₀ tree)
    (hbuf : ∀ q eq w, eq ∈ cmd.ends → WordAt s₀ q eq w → cstr n buf q = w) :
    cmd.read n buf = tree := by
  induction h with
  | exec h =>
    rw [Cmd.read, Tree.exec.injEq]
    induction h with
    | nil => rfl
    | cons hw _ ih =>
      rw [List.map_cons, hbuf _ _ _ (by simp [Cmd.ends]) hw, ih fun q eq w he hw =>
        hbuf q eq w (List.mem_cons_of_mem _ he) hw]
  | redir _ hw ih =>
    rw [Cmd.read, ih fun q eq w he hw => hbuf q eq w (List.mem_append_left _ he) hw,
      hbuf _ _ _ (by simp [Cmd.ends]) hw]
  | pipe _ _ iha ihb | list _ _ iha ihb =>
    rw [Cmd.read, iha fun q eq w he hw => hbuf q eq w (List.mem_append_left _ he) hw,
      ihb fun q eq w he hw => hbuf q eq w (List.mem_append_right _ he) hw]
  | back _ ih => rw [Cmd.read, ih hbuf]

/-! ## The parser -/

theorem Cmd.Shows.parsed {cmd : Cmd} (hnul : NUL ∉ s) (h : cmd.Shows s tree)
    (hr : parsecmd k s = .ok (cmd, nulterminate s.length cmd (buffer s))) :
    parsed k s = .ok tree := by
  rw [Sh.parsed, hr, ok_bind]
  refine congrArg _ (h.read fun q eq w he hw => cstr_nulterminate hnul ?_ he hw)
  exact isEnd_of_taken (parsecmd_sound hr).2

theorem parsed_of_derivation (d : Line) (hnul : NUL ∉ s) (hd : d.Small) (hy : d.yield = tokens s)
    (hk : 4 * (tokens s).length + 4 ≤ k) : parsed k s = .ok d.tree := by
  have hy' : tokens s = d.yield ++ [] := by rw [hy, List.append_nil]
  obtain ⟨cmd, s', hr, hc, ht, -⟩ := d.gives List.suffix_rfl hy' hd (d.follow (.inl rfl)) hk
  refine hc.parsed hnul ?_
  have hnil : skip s' = [] := by
    have hn := next_of_nil ht
    cases hs : skip s' with
    | nil => rfl
    | cons c l =>
      obtain ⟨t, r, hn', -⟩ := next_lead hs
      rw [hn] at hn'
      cases hn'
  rw [parsecmd, hr, ok_bind]
  dsimp only
  rw [peek_eq rfl, hnil]
  rfl

theorem parsed_panics (hno : ¬∃ d : Line, d.Small ∧ d.yield = tokens s)
    (hk : 4 * (tokens s).length + 4 ≤ k) : Panics (parsed k s) := by
  refine Panics.bind ?_
  rcases (outcomes s k).line s List.suffix_rfl hk with ⟨d, ts, h, hsm, hf⟩ | hp
  · obtain ⟨cmd, s', hr, -, ht, -⟩ := d.gives List.suffix_rfl h hsm hf hk
    have hne : skip s' ≠ [] := by
      intro e
      have hnext : next s' = none := by rw [next, e]
      rw [tokens_of_none hnext] at ht
      exact hno ⟨d, hsm, by rw [h, ← ht, List.append_nil]⟩
    refine ⟨"syntax", ?_⟩
    rw [parsecmd, hr, ok_bind]
    dsimp only
    rw [peek_eq rfl, if_pos hne]
  · exact hp.bind

/-- `parsecmd` ends on every line. It returns the tree of a derivation of the line's tokens, if
there is one in which every simple command has fewer than `MAXARGS` words, and this is the only way
it returns; on every other line it panics. -/
theorem parsecmd_exact (s : Ptr) (hnul : NUL ∉ s) :
    ∃ k, ∀ fuel, k ≤ fuel →
      (∀ t, parsed fuel s = .ok t ↔ ∃ d : Line, d.Small ∧ d.yield = tokens s ∧ d.tree = t) ∧
      ((¬∃ d : Line, d.Small ∧ d.yield = tokens s) →
        ∃ msg, parsed fuel s = .error (.panic msg)) := by
  refine ⟨4 * (tokens s).length + 4, fun fuel hk => ⟨fun t => ⟨fun h => ?_, ?_⟩, fun hno =>
    parsed_panics hno hk⟩⟩
  · by_cases hd : ∃ d : Line, d.Small ∧ d.yield = tokens s
    · obtain ⟨d, hsm, hy⟩ := hd
      rw [parsed_of_derivation d hnul hsm hy hk] at h
      exact ⟨d, hsm, hy, Except.ok.inj h⟩
    · obtain ⟨msg, hp⟩ := parsed_panics hd hk
      rw [hp] at h
      cases h
  · rintro ⟨d, hsm, hy, rfl⟩
    exact parsed_of_derivation d hnul hsm hy hk

/-- A redirection, a pipe and a `&` that touch the words around them. -/
theorem parsecmd_exact_touching :
    ∃ k, ∀ fuel, k ≤ fuel → parsed fuel ['a', '>', 'x', '|', 'b', '&'] =
      .ok (.back (.pipe (.redir (.exec [['a']]) ['x'] 0x201 1) (.exec [['b']]))) := by
  obtain ⟨k, hk⟩ := parsecmd_exact ['a', '>', 'x', '|', 'b', '&'] (by decide)
  have htokens : tokens ['a', '>', 'x', '|', 'b', '&'] =
      [.word ['a'], .gt, .word ['x'], .bar, .word ['b'], .amp] := by
    rw [tokens_of_some (r := ['>', 'x', '|', 'b', '&']) rfl,
      tokens_of_some (r := ['x', '|', 'b', '&']) rfl, tokens_of_some (r := ['|', 'b', '&']) rfl,
      tokens_of_some (r := ['b', '&']) rfl, tokens_of_some (r := ['&']) rfl,
      tokens_of_some (r := []) rfl, tokens_of_none rfl]
    rfl
  refine ⟨k, fun fuel hf => ((hk fuel hf).1 _).mpr
    ⟨.single (.bar (.simple [] [⟨['a'], [⟨.output, ['x']⟩]⟩]) (.single (.simple [] [⟨['b'], []⟩]))) 1,
      ⟨?_, ?_⟩, ?_, rfl⟩⟩
  · exact (by decide : 1 < MAXARGS)
  · exact (by decide : 1 < MAXARGS)
  · rw [htokens]
    rfl

end DuckoUnix.Sh
