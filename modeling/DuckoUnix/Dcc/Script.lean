import DuckoUnix.Dcc.Compile

/-!
# dcc as a sequence of acts

Everything that dcc does is made of one kind of act: it looks at the current token, reads the next
one, and puts some bytes into `code_buf`. `main` up to its loop, a statement and the end of `main`
are lists of acts. What such a list does is said once here: when it comes to its end (`Along`) and
when it stores behind the end of an array (`Hits`).
-/

namespace DuckoUnix.Dcc

open Lib

variable {s s' : State} {l : Lexeme} {ls : List Lexeme} {src rest input w : Str}

/-! ## Texts of tokens -/

/-- The text that `next_token` stores in `token_string`: that of a word or of a string. -/
def text (src : Str) : Str :=
  let src := src.dropWhile isSpace
  if src.headD 0 = chr '"' then (stringLoop src.tail).1
  else if isAlpha (src.headD 0) then src.takeWhile isAlnum
  else []

/-- The next token does not fit into `token_string`. -/
def Long (src : Str) : Prop := 128 ≤ (text src).length

theorem inTokenString_overrun {w : Str} {rest : Str} :
    inTokenString w l rest = .error .overrun ↔ 128 ≤ w.length := by
  unfold inTokenString
  split
  · rename_i h
    exact iff_of_false nofun (by omega)
  · rename_i h
    exact iff_of_true rfl (by omega)

theorem punctuation_text {c : BitVec 8} (h : punctuation c = some l) :
    c ≠ chr '"' ∧ isAlpha c = false := by
  unfold punctuation at h
  split_ifs at h with h₁ h₂ h₃ h₄ h₅ h₆ <;> subst c <;> decide

theorem lexeme_overrun_iff : lexeme src = .error .overrun ↔ Long src := by
  unfold lexeme Long text
  generalize src.dropWhile isSpace = src
  dsimp only
  split
  · rename_i h0
    rw [h0, if_neg (by decide), if_neg (by decide)]
    exact iff_of_false nofun (by decide)
  split
  · rename_i hp
    obtain ⟨hq, ha⟩ := punctuation_text hp
    rw [if_neg hq, ha, if_neg Bool.false_ne_true]
    exact iff_of_false nofun (by decide)
  split
  · exact inTokenString_overrun
  split
  · exact inTokenString_overrun
  split
  · exact iff_of_false nofun (by decide)
  · exact iff_of_false nofun (by decide)

/-! ## Acts -/

/-- One act of dcc. -/
structure Act where
  /-- the current token is the right one -/
  ok : State → Bool
  /-- how dcc stops if it is not -/
  stop : Stop
  /-- the bytes that are emitted behind the next token -/
  emits : State → Str
  stop_ne : stop ≠ .overrun

namespace Act

def run (a : Act) (s : State) : Except Stop State :=
  if a.ok s then nextToken s >>= emitAll (a.emits s) else .error a.stop

def skip : Act := ⟨fun _ => true, .syntaxError, fun _ => [], nofun⟩

def expect (t : Token) (bs : Str) : Act := ⟨fun s => s.token = t, .syntaxError, fun _ => bs, nofun⟩

/-- The test for the name of `main`. -/
def name : Act := ⟨fun s => s.str = mainName, .mainMissing, fun _ => [], nofun⟩

/-- The argument of `reboot`, and the code of the call. -/
def argument : Act := ⟨fun _ => true, .syntaxError, fun s => rebootCode s.val, nofun⟩

def next (a : Act) (s : State) (x : Lexeme) (rest : Str) : State :=
  { s.read x rest with code := s.code ++ a.emits s }

end Act

theorem emitAll_eq (bs : Str) (h : s.code.length ≤ 512) : emitAll bs s =
    if s.code.length + bs.length ≤ 512 then .ok { s with code := s.code ++ bs }
    else .error .overrun := by
  induction bs generalizing s with
  | nil =>
    rw [List.length_nil, Nat.add_zero, if_pos h, List.append_nil]
    rfl
  | cons b bs ih =>
    unfold emitAll
    rw [List.foldlM_cons]
    by_cases hroom : s.code.length < 512
    · have hemit : emit b s = .ok { s with code := s.code ++ [b] } := if_pos hroom
      have hlen : (s.code ++ [b]).length = s.code.length + 1 := List.length_append
      have hrest := ih (s := { s with code := s.code ++ [b] }) (hlen ▸ hroom)
      rw [hemit, ok_bind]
      unfold emitAll at hrest
      rw [hrest, hlen, List.append_assoc, List.singleton_append, List.length_cons, Nat.add_assoc,
        Nat.add_comm 1]
    · have hemit : emit b s = .error .overrun := if_neg hroom
      rw [hemit, error_bind, if_neg]
      rw [List.length_cons]
      omega

section Run

variable {a : Act} {as : List Act}

/-- What an act does. -/
theorem Act.run_eq (hroom : s.code.length ≤ 512) (hok : a.ok s = true) :
    a.run s = match lexeme s.src with
      | .error e => .error e
      | .ok (x, rest) =>
        if s.code.length + (a.emits s).length ≤ 512 then .ok (a.next s x rest)
        else .error .overrun := by
  unfold Act.run nextToken
  rw [if_pos hok]
  cases h : lexeme s.src with
  | error e => rfl
  | ok r =>
    obtain ⟨x, rest⟩ := r
    exact emitAll_eq (s := s.read x rest) (a.emits s) hroom

theorem Act.run_eq_ok (hroom : s.code.length ≤ 512) : a.run s = .ok s' ↔ a.ok s = true ∧
    ∃ x rest, lexeme s.src = .ok (x, rest) ∧ s.code.length + (a.emits s).length ≤ 512 ∧
      s' = a.next s x rest := by
  by_cases hok : a.ok s = true
  · rw [Act.run_eq hroom hok]
    cases h : lexeme s.src with
    | error e => simp
    | ok r =>
      obtain ⟨x, rest⟩ := r
      by_cases hfit : s.code.length + (a.emits s).length ≤ 512
      · simp [hok, hfit, eq_comm]
      · simp [hfit]
  · unfold Act.run
    simp [hok]

theorem Act.run_overrun (hroom : s.code.length ≤ 512) : a.run s = .error .overrun ↔
    a.ok s = true ∧ (Long s.src ∨ ∃ x rest, lexeme s.src = .ok (x, rest) ∧
      512 < s.code.length + (a.emits s).length) := by
  by_cases hok : a.ok s = true
  · rw [Act.run_eq hroom hok, ← lexeme_overrun_iff]
    cases h : lexeme s.src with
    | error e => simp [hok]
    | ok r =>
      obtain ⟨x, rest⟩ := r
      by_cases hfit : s.code.length + (a.emits s).length ≤ 512
      · simp [hok, hfit]
      · simp [hok, hfit, not_le.mp hfit]
  · unfold Act.run
    simp [hok, a.stop_ne]

def runAll (as : List Act) (s : State) : Except Stop State := as.foldlM (fun s a => a.run s) s

theorem runAll_cons : runAll (a :: as) s = a.run s >>= fun t => runAll as t := List.foldlM_cons

theorem runAll_nil : runAll [] s = pure s := rfl

def Along : List Act → State → List Lexeme → State → Prop
  | [], s, ls, s' => ls = [] ∧ s' = s
  | a :: as, s, ls, s' => a.ok s = true ∧ ∃ x rest ms, lexeme s.src = .ok (x, rest) ∧ ls = x :: ms ∧
      s.code.length + (a.emits s).length ≤ 512 ∧ Along as (a.next s x rest) ms s'

/-- One of the acts stores behind the end of an array. -/
def Hits : List Act → State → Prop
  | [], _ => False
  | a :: as, s => a.ok s = true ∧ (Long s.src ∨ ∃ x rest, lexeme s.src = .ok (x, rest) ∧
      (512 < s.code.length + (a.emits s).length ∨ Hits as (a.next s x rest)))

theorem Act.next_room {x : Lexeme} (h : s.code.length + (a.emits s).length ≤ 512) :
    (a.next s x rest).code.length ≤ 512 := by
  unfold Act.next
  rw [List.length_append]
  exact h

theorem runAll_eq_ok (hroom : s.code.length ≤ 512) :
    runAll as s = .ok s' ↔ ∃ ls, Along as s ls s' := by
  induction as generalizing s with
  | nil =>
    constructor
    · intro h
      cases h
      exact ⟨[], rfl, rfl⟩
    · rintro ⟨_, -, rfl⟩
      rfl
  | cons a as ih =>
    rw [runAll_cons, bind_eq_ok]
    constructor
    · rintro ⟨t, ht, h⟩
      obtain ⟨hok, x, rest, hx, hfit, rfl⟩ := (Act.run_eq_ok hroom).mp ht
      obtain ⟨ms, hms⟩ := (ih (Act.next_room hfit)).mp h
      exact ⟨x :: ms, hok, x, rest, ms, hx, rfl, hfit, hms⟩
    · rintro ⟨_, hok, x, rest, ms, hx, rfl, hfit, hms⟩
      exact ⟨_, (Act.run_eq_ok hroom).mpr ⟨hok, x, rest, hx, hfit, rfl⟩,
        (ih (Act.next_room hfit)).mpr ⟨ms, hms⟩⟩

theorem runAll_overrun (hroom : s.code.length ≤ 512) :
    runAll as s = .error .overrun ↔ Hits as s := by
  induction as generalizing s with
  | nil => exact iff_of_false nofun id
  | cons a as ih =>
    rw [runAll_cons, bind_eq_error, Act.run_overrun hroom]
    constructor
    · rintro (⟨hok, hlong | ⟨x, rest, hx, hfull⟩⟩ | ⟨t, ht, h⟩)
      · exact ⟨hok, .inl hlong⟩
      · exact ⟨hok, .inr ⟨x, rest, hx, .inl hfull⟩⟩
      · obtain ⟨hok, x, rest, hx, hfit, rfl⟩ := (Act.run_eq_ok hroom).mp ht
        exact ⟨hok, .inr ⟨x, rest, hx, .inr ((ih (Act.next_room hfit)).mp h)⟩⟩
    · rintro ⟨hok, hlong | ⟨x, rest, hx, hmore⟩⟩
      · exact .inl ⟨hok, .inl hlong⟩
      by_cases hfit : s.code.length + (a.emits s).length ≤ 512
      · refine .inr ⟨_, (Act.run_eq_ok hroom).mpr ⟨hok, x, rest, hx, hfit, rfl⟩, ?_⟩
        exact (ih (Act.next_room hfit)).mpr (hmore.resolve_left (not_lt.mpr hfit))
      · exact .inl ⟨hok, .inr ⟨x, rest, hx, not_le.mp hfit⟩⟩

end Run

/-! ## The scripts -/

/-- `main` up to its loop -/
def headerScript : List Act :=
  [.skip, .expect .INT [], .name, .expect .LPAREN [], .expect .RPAREN [], .expect .LBRACE []]

def script (w : Str) : List Act :=
  if w = rebootName then
    [.skip, .expect .LPAREN [], .argument, .expect .RPAREN [], .expect .SEMICOLON []]
  else [.skip, .expect .LPAREN (otherCode w), .expect .RPAREN [], .expect .SEMICOLON []]

def endScript : List Act := [.expect .RBRACE (callCode 2)]

theorem Act.run_silent {a : Act} (h : a.emits s = []) :
    a.run s = if a.ok s then nextToken s else .error a.stop := by
  unfold Act.run
  rw [h]
  split
  · cases nextToken s <;> rfl
  · rfl

theorem run_skip : Act.skip.run s = nextToken s := (Act.run_silent rfl).trans (if_pos rfl)

theorem run_expect (t : Token) (bs : Str) :
    (Act.expect t bs).run s = matchToken t s >>= fun t => emitAll bs t := by
  unfold Act.run matchToken Act.expect
  simp only [decide_eq_true_eq]
  split
  · rfl
  · rfl

theorem emitAll_nil : emitAll [] s = pure s := rfl

theorem run_expect_nil (t : Token) : (Act.expect t []).run s = matchToken t s := by
  rw [run_expect]
  cases matchToken t s <;> rfl

theorem run_name : Act.name.run s =
    if s.str ≠ mainName then .error .mainMissing else nextToken s := by
  rw [Act.run_silent rfl, ite_not]
  simp only [Act.name, decide_eq_true_eq]

theorem run_argument :
    Act.argument.run s = nextToken s >>= fun t => emitAll (rebootCode s.val) t := if_pos rfl

theorem header_eq (input : Str) : header input = runAll headerScript ⟨input, .EOF, [], 0, []⟩ := by
  unfold header headerScript
  have hmain : lit ['m', 'a', 'i', 'n'] = mainName := rfl
  simp only [runAll_cons, runAll_nil, run_skip, run_expect_nil, run_name, bind_pure, hmain]
  refine congrArg _ (funext fun s₁ => congrArg _ (funext fun s₂ => ?_))
  by_cases h : s₂.str = mainName
  · rw [if_neg (not_not.mpr h), if_neg (not_not.mpr h)]
  · rw [if_pos h, if_pos h, error_bind]

theorem compileStatement_eq (htok : s.token = .NAME) : compileStatement s =
    if s.str.length < 64 then runAll (script s.str) s else .error .overrun := by
  unfold compileStatement
  rw [if_pos htok]
  refine if_congr Iff.rfl ?_ rfl
  unfold script
  split
  · rename_i hw
    simp only [hw, runAll_cons, runAll_nil, run_skip, run_expect_nil, run_argument,
      compileCall_reboot, bind_assoc, bind_pure]
  · rename_i hw
    simp only [runAll_cons, runAll_nil, run_skip, run_expect, emitAll_nil, compileCall_other hw,
      bind_assoc, bind_pure]

/-! ## What is left of the text -/

theorem emitAll_keeps {bs : Str} (h : emitAll bs s = .ok s') :
    s'.src = s.src ∧ s'.token = s.token := by
  induction bs generalizing s with
  | nil =>
    cases h
    exact ⟨rfl, rfl⟩
  | cons b bs ih =>
    unfold emitAll at h
    rw [List.foldlM_cons] at h
    obtain ⟨t, ht, h⟩ := bind_eq_ok.mp h
    unfold emit at ht
    split at ht <;> cases ht
    obtain ⟨hsrc, htok⟩ := ih h
    exact ⟨hsrc, htok⟩

theorem Act.run_shorter {a : Act} (h : a.run s = .ok s') :
    s'.src.length ≤ s.src.length ∧ (s'.token ≠ .EOF → s'.src.length < s.src.length) := by
  unfold Act.run at h
  split at h
  swap
  · cases h
  obtain ⟨t, ht, h⟩ := bind_eq_ok.mp h
  obtain ⟨l, rest, hl, rfl⟩ := nextToken_eq_ok.mp ht
  obtain ⟨hsrc, htok⟩ := emitAll_keeps h
  rw [hsrc, htok]
  refine ⟨(lexeme_length hl).1, fun hne => (lexeme_length hl).2 ?_⟩
  rintro rfl
  exact hne rfl

theorem runAll_length {as : List Act} (h : runAll as s = .ok s') :
    s'.src.length ≤ s.src.length := by
  induction as generalizing s with
  | nil =>
    cases h
    exact Nat.le_refl _
  | cons a as ih =>
    rw [runAll_cons] at h
    obtain ⟨t, ht, h⟩ := bind_eq_ok.mp h
    exact Nat.le_trans (ih h) (Act.run_shorter ht).1

/-- A statement that was compiled took at least its parenthesis from the text. -/
theorem compileStatement_shorter (htok : s.token = .NAME) (h : compileStatement s = .ok s') :
    s'.src.length < s.src.length := by
  rw [compileStatement_eq htok] at h
  split at h
  swap
  · cases h
  obtain ⟨bs, as, hscript⟩ : ∃ bs as, script s.str = .skip :: .expect .LPAREN bs :: as := by
    unfold script
    split
    · exact ⟨_, _, rfl⟩
    · exact ⟨_, _, rfl⟩
  rw [hscript, runAll_cons] at h
  obtain ⟨t, ht, h⟩ := bind_eq_ok.mp h
  have hparen : t.token = .LPAREN := by
    by_contra hne
    rw [runAll_cons, run_expect] at h
    unfold matchToken at h
    rw [if_neg hne] at h
    cases h
  refine Nat.lt_of_le_of_lt (runAll_length h) ((Act.run_shorter ht).2 ?_)
  rw [hparen]
  nofun

end DuckoUnix.Dcc
