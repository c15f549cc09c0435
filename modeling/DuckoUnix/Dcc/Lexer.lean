import Mathlib.Data.List.TakeWhile
import DuckoUnix.Lib.Except
import DuckoUnix.Lib.Bytes

/-!
# The lexer of dcc

`next_token` of `dcc.c`. The source text is what `main` has read into `buffer`, and `src_ptr` is
given by the bytes from it to the end of the text; the NUL behind the text and a NUL inside it both
end the program. `lexeme` is what `next_token` finds at `src_ptr`, and `nextToken` puts it into the
global variables.

`token_string` is an array of 128 bytes, and nothing keeps a word or a string from running past its
end. What C does from there on is not defined, and the model stops with `overrun`.
-/

namespace DuckoUnix.Dcc

open Lib

/-- A C string without its NUL. -/
abbrev Str := List (BitVec 8)

def chr (c : Char) : BitVec 8 := BitVec.ofNat 8 c.toNat

/-- A string literal of the source. -/
def lit (cs : List Char) : Str := cs.map chr

inductive Token
  | EOF | INT | NAME | NUM | STRING | LBRACE | RBRACE | LPAREN | RPAREN | SEMICOLON | COMMA
  deriving DecidableEq, Repr

/-- How dcc stops without writing its output. -/
inductive Stop
  /-- `"dcc: Lexer error\n"` -/
  | lexerError
  /-- `"dcc: Syntax Error\n"` -/
  | syntaxError
  /-- `"dcc: Main missing\n"` -/
  | mainMissing
  /-- `"dcc: Cannot create executable\n"` -/
  | cannotCreate
  /-- a store behind the end of `token_string`, `name` or `code_buf` -/
  | overrun
  deriving DecidableEq, Repr

/-- The global variables of dcc. -/
structure State where
  /-- the text from `src_ptr` on -/
  src : Str
  /-- `current_token` -/
  token : Token
  /-- `token_string` up to its NUL -/
  str : Str
  /-- `token_value` -/
  val : BitVec 32
  /-- the first `code_idx` bytes of `code_buf` -/
  code : Str
  deriving DecidableEq

/-! ## Characters -/

def isSpace (c : BitVec 8) : Bool :=
  c = chr ' ' || c = chr '\t' || c = chr '\n' || c = chr '\r'

/-- A letter; `char` is signed, but the bytes from 128 on are no letters either way. -/
def isAlpha (c : BitVec 8) : Bool :=
  (chr 'a' ≤ c && c ≤ chr 'z') || (chr 'A' ≤ c && c ≤ chr 'Z')

def isDigit (c : BitVec 8) : Bool := chr '0' ≤ c && c ≤ chr '9'

def isAlnum (c : BitVec 8) : Bool := isAlpha c || isDigit c

/-! ## Lexemes -/

/-- A token with its text. -/
inductive Lexeme
  | eof | lbrace | rbrace | lparen | rparen | semicolon | comma
  | int
  | name (w : Str)
  | num (digits : Str)
  | string (w : Str)
  deriving DecidableEq

def Lexeme.token : Lexeme → Token
  | eof => .EOF
  | lbrace => .LBRACE
  | rbrace => .RBRACE
  | lparen => .LPAREN
  | rparen => .RPAREN
  | semicolon => .SEMICOLON
  | comma => .COMMA
  | int => .INT
  | name _ => .NAME
  | num _ => .NUM
  | string _ => .STRING

def punctuation (c : BitVec 8) : Option Lexeme :=
  if c = chr '{' then some .lbrace
  else if c = chr '}' then some .rbrace
  else if c = chr '(' then some .lparen
  else if c = chr ')' then some .rparen
  else if c = chr ';' then some .semicolon
  else if c = chr ',' then some .comma
  else none

/-- The loop over a string literal: the characters stored, and what is left at the closing quote or
at the end of the text. -/
def stringLoop : Str → Str × Str
  | [] => ([], [])
  | [c] => if c = chr '"' ∨ c = 0 then ([], [c]) else ([c], [])
  | c :: d :: src =>
    if c = chr '"' ∨ c = 0 then ([], c :: d :: src)
    else if c = chr '\\' ∧ d = chr 'n' then
      let r := stringLoop src
      (chr '\n' :: r.1, r.2)
    else
      let r := stringLoop (d :: src)
      (c :: r.1, r.2)

/-- A text of `w` and its NUL in `token_string[128]`. -/
def inTokenString (w : Str) (l : Lexeme) (rest : Str) : Except Stop (Lexeme × Str) :=
  if w.length < 128 then .ok (l, rest) else .error .overrun

/-- The next lexeme of the text and what comes behind it. -/
def lexeme (src : Str) : Except Stop (Lexeme × Str) :=
  let src := src.dropWhile isSpace
  let c := src.headD 0
  if c = 0 then .ok (.eof, src)
  else match punctuation c with
  | some l => .ok (l, src.tail)
  | none =>
    if c = chr '"' then
      let r := stringLoop src.tail
      inTokenString r.1 (.string r.1) (if r.2.headD 0 = chr '"' then r.2.tail else r.2)
    else if isAlpha c then
      let w := src.takeWhile isAlnum
      inTokenString w (if w = lit ['i', 'n', 't'] then .int else .name w) (src.dropWhile isAlnum)
    else if isDigit c then
      .ok (.num (src.takeWhile isDigit), src.dropWhile isDigit)
    else .error .lexerError

/-- `token_value = token_value * 10 + (*src_ptr - '0')` over the digits -/
def value (digits : Str) : BitVec 32 :=
  digits.foldl (fun v c => v * 10 + (c.setWidth 32 - (chr '0').setWidth 32)) 0

/-- `token_string` once `l` has been read over `str`. -/
def Lexeme.str : Lexeme → Str → Str
  | int, _ => lit ['i', 'n', 't']
  | name w, _ => w
  | string w, _ => w
  | _, str => str

/-- `token_value` once `l` has been read over `val`. -/
def Lexeme.val : Lexeme → BitVec 32 → BitVec 32
  | num ds, _ => value ds
  | _, val => val

/-- The global variables with the lexeme `l` as the current token. -/
def State.read (s : State) (l : Lexeme) (rest : Str) : State :=
  { s with src := rest, token := l.token, str := l.str s.str, val := l.val s.val }

def nextToken (s : State) : Except Stop State := do
  let (l, rest) ← lexeme s.src
  return s.read l rest

/-! ## What is read -/

section Read

variable {s s' : State} {l : Lexeme} {src rest : Str}

theorem nextToken_eq_ok :
    nextToken s = .ok s' ↔ ∃ l rest, lexeme s.src = .ok (l, rest) ∧ s' = s.read l rest := by
  unfold nextToken
  rw [bind_eq_ok]
  constructor
  · rintro ⟨⟨l, rest⟩, hl, h⟩
    cases h
    exact ⟨l, rest, hl, rfl⟩
  · rintro ⟨l, rest, hl, rfl⟩
    exact ⟨(l, rest), hl, rfl⟩

theorem inTokenString_eq_ok {w : Str} {l' : Lexeme} {rest' : Str}
    (h : inTokenString w l' rest' = .ok (l, rest)) : l = l' ∧ rest = rest' := by
  unfold inTokenString at h
  split at h <;> cases h
  exact ⟨rfl, rfl⟩

theorem stringLoop_length (src : Str) : (stringLoop src).2.length ≤ src.length := by
  fun_induction stringLoop src with
  | case1 => exact Nat.le_refl _
  | case2 c h => exact Nat.le_refl _
  | case3 c h => exact Nat.zero_le _
  | case4 c d src h => exact Nat.le_refl _
  | case5 c d src h hn r ih =>
    exact Nat.le_succ_of_le (Nat.le_succ_of_le ih)
  | case6 c d src h hn r ih => exact Nat.le_succ_of_le ih

theorem skip_lt {p : BitVec 8 → Bool} (h : p (src.headD 0) = true) (h0 : src ≠ []) :
    (src.dropWhile p).length < src.length := by
  cases src with
  | nil => exact absurd rfl h0
  | cons c src =>
    have hc : p c = true := h
    rw [List.dropWhile_cons_of_pos hc]
    exact Nat.lt_succ_of_le (List.dropWhile_suffix p).length_le

/-- Every lexeme but the end of the text takes at least one byte. -/
theorem lexeme_length (h : lexeme src = .ok (l, rest)) :
    rest.length ≤ src.length ∧ (l ≠ .eof → rest.length < src.length) := by
  have hskip : (src.dropWhile isSpace).length ≤ src.length :=
    (List.dropWhile_suffix isSpace).length_le
  suffices hs : rest.length ≤ (src.dropWhile isSpace).length ∧
      (l ≠ .eof → rest.length < (src.dropWhile isSpace).length) from
    ⟨Nat.le_trans hs.1 hskip, fun hl => Nat.lt_of_lt_of_le (hs.2 hl) hskip⟩
  unfold lexeme at h
  generalize src.dropWhile isSpace = src at h
  dsimp only at h
  split at h
  · cases h
    exact ⟨Nat.le_refl _, fun hl => absurd rfl hl⟩
  rename_i h0
  -- from here on a byte is there, and every branch takes it
  have hne : src ≠ [] := by
    rintro rfl
    exact h0 rfl
  suffices hs : rest.length < src.length from ⟨Nat.le_of_lt hs, fun _ => hs⟩
  have htail : src.tail.length < src.length := by
    rw [List.length_tail]
    have := List.length_pos_iff.mpr hne
    omega
  split at h
  · cases h
    exact htail
  split at h
  · obtain ⟨-, rfl⟩ := inTokenString_eq_ok h
    have hloop := stringLoop_length src.tail
    split
    · rw [List.length_tail]
      omega
    · omega
  split at h
  · rename_i halpha
    obtain ⟨-, rfl⟩ := inTokenString_eq_ok h
    exact skip_lt (by unfold isAlnum; rw [halpha]; rfl) hne
  split at h
  · rename_i hdigit
    cases h
    exact skip_lt hdigit hne
  · cases h

/-! ## Texts -/

/-- The text `src` begins with the lexemes `ls`, and `rest` comes behind them. -/
inductive Reads : Str → List Lexeme → Str → Prop
  | nil {src : Str} : Reads src [] src
  | cons {src mid rest : Str} {l : Lexeme} {ls : List Lexeme} (head : lexeme src = .ok (l, mid))
      (tail : Reads mid ls rest) : Reads src (l :: ls) rest

theorem Reads.uncons {ls : List Lexeme} (h : Reads src (l :: ls) rest) :
    ∃ mid, lexeme src = .ok (l, mid) ∧ Reads mid ls rest := by
  cases h with
  | cons head tail => exact ⟨_, head, tail⟩

theorem Reads.append_iff {ls ms : List Lexeme} :
    Reads src (ls ++ ms) rest ↔ ∃ mid, Reads src ls mid ∧ Reads mid ms rest := by
  constructor
  · intro h
    induction ls generalizing src with
    | nil => exact ⟨src, .nil, h⟩
    | cons l ls ih =>
      obtain ⟨mid, hl, h⟩ := h.uncons
      obtain ⟨mid', hls, hms⟩ := ih h
      exact ⟨mid', .cons hl hls, hms⟩
  · rintro ⟨mid, h, h'⟩
    induction h with
    | nil => exact h'
    | cons head _ ih => exact .cons head (ih h')

end Read

end DuckoUnix.Dcc
