import DuckoUnix.Dcc.Lexer

/-!
# dcc

`match`, `compile_statement`, `write_elf_header` and `main` of `dcc.c`. The input file has been
read into `buffer`; `created` says whether the output file can be opened for writing. The loop of
`main` has a bound on its iterations, and `none` means that the loop has not ended within it.

`code_buf` holds 512 bytes and `name` holds 64; a store behind the end of one of them stops the
model as one behind `token_string` does.
-/

namespace DuckoUnix.Dcc

open Lib

def matchToken (expected : Token) (s : State) : Except Stop State :=
  if s.token = expected then nextToken s else .error .syntaxError

def emit (b : BitVec 8) (s : State) : Except Stop State :=
  if s.code.length < 512 then .ok { s with code := s.code ++ [b] } else .error .overrun

def emitInt (i : BitVec 32) (s : State) : Except Stop State := do
  let s ← emit (i.setWidth 8) s
  let s ← emit ((i >>> 8).setWidth 8) s
  let s ← emit ((i >>> 16).setWidth 8) s
  emit ((i >>> 24).setWidth 8) s

def emitCall (num : BitVec 32) (s : State) : Except Stop State := do
  let s ← emit 0xB8 s
  let s ← emitInt num s
  let s ← emit 0xCD s
  emit 0x40 s

def rebootName : Str := lit ['r', 'e', 'b', 'o', 'o', 't']

def exitName : Str := lit ['e', 'x', 'i', 't']

/-- The code for a call of `name`. For `reboot` the current token is taken as the argument, whatever
it is; a name that is neither compiles to nothing. -/
def compileCall (name : Str) (s : State) : Except Stop State :=
  if name = rebootName then do
    let arg := s.val
    let s ← nextToken s
    let s ← emit 0x6A s
    let s ← emit (arg.setWidth 8) s
    emitCall 23 s
  else if name = exitName then emitCall 2 s
  else .ok s

def compileStatement (s : State) : Except Stop State :=
  if s.token = .NAME then
    -- `strcpy(name, token_string)`
    if s.str.length < 64 then do
      let name := s.str
      let s ← nextToken s
      let s ← matchToken .LPAREN s
      let s ← compileCall name s
      let s ← matchToken .RPAREN s
      matchToken .SEMICOLON s
    else .error .overrun
  else .ok s

/-- The ELF header that `write_elf_header` writes: the program header is behind it, the entry point
behind both. -/
def elfhdr : Str :=
  [0x7F, chr 'E', chr 'L', chr 'F', 1, 1, 1, 0, 0, 0, 0, 0, 0, 0, 0, 0,
    2, 0, 3, 0, 1, 0, 0, 0, 0x54, 0, 0, 0, 52, 0, 0, 0, 0, 0, 0, 0, 0, 0, 0, 0,
    52, 0, 32, 0, 1, 0, 0, 0, 0, 0, 0, 0]

/-- The program header, with two bytes of each size patched. -/
def proghdr (codeSize : ℕ) : Str :=
  let totalSize := 84 + codeSize
  let lo := BitVec.ofNat 8 totalSize
  let hi := BitVec.ofNat 8 (totalSize / 256)
  [1, 0, 0, 0, 0, 0, 0, 0, 0, 0, 0, 0, 0, 0, 0, 0,
    lo, hi, 0, 0, lo, hi, 0, 0, 7, 0, 0, 0, 0, 0, 0, 0]

def elfHeader (codeSize : ℕ) : Str := elfhdr ++ proghdr codeSize

/-- `main` up to its loop. The name is only compared with `token_string`, so a string literal
passes for it too. -/
def header (input : Str) : Except Stop State := do
  let s ← nextToken ⟨input, .EOF, [], 0, []⟩
  let s ← matchToken .INT s
  if s.str ≠ lit ['m', 'a', 'i', 'n'] then .error .mainMissing
  else do
    let s ← nextToken s
    let s ← matchToken .LPAREN s
    let s ← matchToken .RPAREN s
    matchToken .LBRACE s

/-- The loop of `main`, for at most `n` iterations. -/
def loop : ℕ → State → Option (Except Stop State)
  | 0, _ => none
  | n + 1, s =>
    if s.token = .RBRACE ∨ s.token = .EOF then some (.ok s)
    else
      match compileStatement s with
      | .error e => some (.error e)
      | .ok s => loop n s

/-- `main` behind its loop: the bytes of the output file. -/
def finish (created : Bool) (s : State) : Except Stop Str := do
  let s ← matchToken .RBRACE s
  let s ← emitCall 2 s
  if created then .ok (elfHeader s.code.length ++ s.code) else .error .cannotCreate

/-- `main` on the text `input`, with at most `n` iterations of its loop. -/
def dcc (n : ℕ) (created : Bool) (input : Str) : Option (Except Stop Str) :=
  match header input with
  | .error e => some (.error e)
  | .ok s => (loop n s).map fun r => r >>= finish created

/-! ## Emitting -/

section Emit

def emitAll (bs : Str) (s : State) : Except Stop State :=
  bs.foldlM (fun s b => emit b s) s

def callCode (num : BitVec 32) : Str :=
  [0xB8, num.setWidth 8, (num >>> 8).setWidth 8, (num >>> 16).setWidth 8, (num >>> 24).setWidth 8,
    0xCD, 0x40]

theorem emitCall_eq (num : BitVec 32) (s : State) : emitCall num s = emitAll (callCode num) s := by
  simp only [emitCall, emitInt, emitAll, callCode, List.foldlM_cons, List.foldlM_nil, bind_assoc,
    bind_pure]

def rebootCode (arg : BitVec 32) : Str := [0x6A, arg.setWidth 8] ++ callCode 23

end Emit

/-! ## Statements -/

section Statements

variable {s : State} {l : Lexeme} {w rest : Str}

/-- The lexeme `l` is the current token. -/
structure Current (s : State) (l : Lexeme) : Prop where
  token : s.token = l.token
  name : ∀ w, l = .name w → s.str = w

def otherCode (w : Str) : Str := if w = exitName then callCode 2 else []

theorem compileCall_reboot :
    compileCall rebootName s = nextToken s >>= fun t => emitAll (rebootCode s.val) t := by
  unfold compileCall
  rw [if_pos rfl]
  dsimp only
  simp only [emitCall_eq, rebootCode, emitAll, List.cons_append, List.nil_append,
    List.foldlM_cons]

theorem compileCall_other (hw : w ≠ rebootName) : compileCall w s = emitAll (otherCode w) s := by
  unfold compileCall otherCode
  rw [if_neg hw]
  by_cases he : w = exitName
  · rw [if_pos he, if_pos he, emitCall_eq]
  · rw [if_neg he, if_neg he]
    rfl

theorem eq_of_token {l' : Lexeme} (h : l.token = l'.token)
    (hl : l' = .lparen ∨ l' = .rparen ∨ l' = .semicolon ∨ l' = .lbrace ∨ l' = .int) : l = l' := by
  rcases hl with rfl | rfl | rfl | rfl | rfl <;> cases l <;> first | rfl | cases h

end Statements

/-! ## The header -/

def mainName : Str := lit ['m', 'a', 'i', 'n']

/-- The lexemes that pass for the name of the function. -/
def IsMain (m : Lexeme) : Prop := m = .name mainName ∨ m = .string mainName

def headerOf (m : Lexeme) : List Lexeme := [.int, m, .lparen, .rparen, .lbrace]

theorem isMain_of_str {m : Lexeme} (h : m.str (lit ['i', 'n', 't']) = mainName) : IsMain m := by
  have hint : lit ['i', 'n', 't'] ≠ mainName := by decide
  cases m with
  | name w => exact .inl (congrArg Lexeme.name h)
  | string w => exact .inr (congrArg Lexeme.string h)
  | _ => exact absurd h hint

/-! ## The loop -/

section Loop

variable {s : State} {input : Str} {n : ℕ} {created : Bool}

/-- The tokens that neither begin a statement nor end the loop. -/
def Idle (t : Token) : Prop := t ≠ .NAME ∧ t ≠ .RBRACE ∧ t ≠ .EOF

theorem compileStatement_idle (htok : s.token ≠ .NAME) : compileStatement s = .ok s := if_neg htok

theorem loop_succ (hr : s.token ≠ .RBRACE) (he : s.token ≠ .EOF) :
    loop (n + 1) s = match compileStatement s with
      | .error e => some (.error e)
      | .ok s => loop n s := if_neg (not_or.mpr ⟨hr, he⟩)

theorem loop_idle (h : Idle s.token) (n : ℕ) : loop n s = none := by
  induction n with
  | zero => rfl
  | succ n ih =>
    rw [loop_succ h.2.1 h.2.2, compileStatement_idle h.1]
    exact ih

theorem loop_mono {r : Except Stop State} (h : loop n s = some r) (k : ℕ) :
    loop (n + k) s = some r := by
  induction n generalizing s with
  | zero => cases h
  | succ n ih =>
    rw [Nat.add_right_comm]
    unfold loop at h ⊢
    split
    · rwa [if_pos (by assumption)] at h
    · rw [if_neg (by assumption)] at h
      cases hc : compileStatement s with
      | error e => rw [hc] at h; exact h
      | ok s' => rw [hc] at h; exact ih h

/-- From `s` the loop comes to `s'`, unless a store goes wrong on the way. -/
def Comes (s s' : State) : Prop := ∃ k, ∀ n, loop (k + n) s = loop n s'

/-! ## dcc -/

/-- dcc stores behind the end of one of its arrays. -/
def Overruns (created : Bool) (input : Str) : Prop :=
  ∃ n, dcc n created input = some (.error .overrun)

/-- dcc writes its output or leaves with an error. -/
def Ends (created : Bool) (input : Str) : Prop :=
  ∃ n r, dcc n created input = some r ∧ r ≠ .error .overrun

theorem dcc_of_header (h : header input = .ok s) :
    dcc n created input = (loop n s).map fun r => r >>= finish created := by
  unfold dcc
  rw [h]

theorem dcc_mono {r : Except Stop Str} (h : dcc n created input = some r) (k : ℕ) :
    dcc (n + k) created input = some r := by
  unfold dcc at h ⊢
  split
  · rwa [‹header input = _›] at h
  · rw [‹header input = _›] at h
    obtain ⟨r', hloop, rfl⟩ := Option.map_eq_some_iff.mp h
    rw [loop_mono hloop]
    rfl

theorem dcc_det {m : ℕ} {r r' : Except Stop Str} (h : dcc n created input = some r)
    (h' : dcc m created input = some r') : r = r' := by
  have hn := dcc_mono h m
  have hm := dcc_mono h' n
  rw [Nat.add_comm, hn] at hm
  exact Option.some.inj hm

end Loop

end DuckoUnix.Dcc
