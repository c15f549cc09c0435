import Mathlib.Data.List.Induction
import DuckoUnix.Dcc.Script

/-!
# The programs that dcc reads

A program is `int main() {`, calls, and `}`. `At` says where dcc is when its loop looks at a token:
it has read the beginning of a program up to some call, and the code of these calls is in `code_buf`.
Every outcome of dcc comes from such a state (`dcc_inv`), and dcc gets to it from every text that
begins so, unless it stores behind the end of an array on the way (`reaches`).
-/

namespace DuckoUnix.Dcc

open Lib

/-! ## Calls -/

/-- A call as dcc reads it: any token passes for the argument of `reboot`. -/
inductive Clause
  | reboot (arg : Lexeme)
  | call (w : Str) (hw : w ≠ rebootName)

namespace Clause

def name : Clause → Str
  | reboot _ => rebootName
  | call w _ => w

/-- What stands between the name and the parenthesis behind the argument. -/
def opening : Clause → List Lexeme
  | reboot arg => [.lparen, arg]
  | call _ _ => [.lparen]

def rest (c : Clause) : List Lexeme := c.opening ++ [.rparen, .semicolon]

def lexemes (c : Clause) : List Lexeme := .name c.name :: c.rest

/-- The code of the call if `token_value` is `v` before it. -/
def code (v : BitVec 32) : Clause → Str
  | reboot arg => rebootCode (arg.val v)
  | call w _ => otherCode w

def val (v : BitVec 32) : Clause → BitVec 32
  | reboot arg => arg.val v
  | call _ _ => v

end Clause

/-- The text of a program up to one of its calls. -/
def front (m : Lexeme) (cs : List Clause) : List Lexeme := headerOf m ++ cs.flatMap Clause.lexemes

def valOf (cs : List Clause) : BitVec 32 := cs.foldl (fun v c => c.val v) 0

def codeFrom : BitVec 32 → List Clause → Str
  | _, [] => []
  | v, c :: cs => c.code v ++ codeFrom (c.val v) cs

def codeOf (cs : List Clause) : Str := codeFrom 0 cs

section Calls

variable {m : Lexeme} {cs : List Clause} {c : Clause}

theorem front_concat : front m (cs ++ [c]) = front m cs ++ c.lexemes := by
  simp [front]

theorem valOf_concat : valOf (cs ++ [c]) = c.val (valOf cs) := by
  simp [valOf]

theorem codeFrom_concat {v : BitVec 32} :
    codeFrom v (cs ++ [c]) = codeFrom v cs ++ c.code (cs.foldl (fun v c => c.val v) v) := by
  induction cs generalizing v with
  | nil => simp [codeFrom]
  | cons c' cs ih => simp [codeFrom, ih]

theorem codeOf_concat : codeOf (cs ++ [c]) = codeOf cs ++ c.code (valOf cs) := codeFrom_concat

end Calls

variable {s s' : State} {l x : Lexeme} {ls ts : List Lexeme} {src rest input w out : Str} {v : BitVec 32}
  {m : Lexeme} {cs : List Clause} {c : Clause} {n : ℕ} {created : Bool}

/-- The lexeme `l` is the current token, and `token_value` was `v` before it. -/
structure Shows (s : State) (l : Lexeme) (v : BitVec 32) : Prop extends Current s l where
  val : s.val = l.val v

theorem Shows.val_name (h : Shows s (.name w) v) : s.val = v := h.val

@[simp] theorem reads_nil : Reads src [] rest ↔ src = rest := by
  constructor
  · rintro ⟨⟩
    rfl
  · rintro rfl
    exact .nil

theorem reads_cons :
    Reads src (l :: ls) rest ↔ ∃ mid, lexeme src = .ok (l, mid) ∧ Reads mid ls rest :=
  ⟨Reads.uncons, fun ⟨_, h, h'⟩ => .cons h h'⟩

theorem Reads.det {ms : List Lexeme} {rest' : Str} (h : Reads src ls rest) (h' : Reads src ms rest')
    (hlen : ls.length = ms.length) : ls = ms ∧ rest = rest' := by
  induction h generalizing ms with
  | nil =>
    obtain rfl := List.length_eq_zero_iff.mp hlen.symm
    exact ⟨rfl, reads_nil.mp h'⟩
  | @cons src mid rest l ls hl _ ih =>
    cases ms with
    | nil => cases hlen
    | cons l' ms =>
      obtain ⟨mid', hl', h'⟩ := h'.uncons
      rw [hl] at hl'
      cases hl'
      obtain ⟨rfl, rfl⟩ := ih h' (Nat.succ.inj hlen)
      exact ⟨rfl, rfl⟩

/-! ## One call -/

theorem expect_ok {t : Token} {bs : Str} : (Act.expect t bs).ok s = true ↔ s.token = t :=
  decide_eq_true_iff

section Next

variable {a : Act}

@[simp] theorem code_next : (a.next s x rest).code = s.code ++ a.emits s := rfl

@[simp] theorem val_next : (a.next s x rest).val = x.val s.val := rfl

@[simp] theorem src_next : (a.next s x rest).src = rest := rfl

theorem shows_next : Shows (a.next s x rest) x s.val where
  token := rfl
  name w hx := by rw [hx]; rfl
  val := rfl

@[simp] theorem emits_expect {t : Token} {bs : Str} : (Act.expect t bs).emits s = bs := rfl

@[simp] theorem emits_skip : Act.skip.emits s = [] := rfl

@[simp] theorem emits_name : Act.name.emits s = [] := rfl

@[simp] theorem emits_argument : Act.argument.emits s = rebootCode s.val := rfl

@[simp] theorem val_lparen : Lexeme.lparen.val v = v := rfl

end Next

/-- What the script of a statement reads and emits. -/
theorem along_script (hs : Shows s (.name w) v) (h : Along (script w) s ls s') :
    ∃ (c : Clause) (l : Lexeme), c.name = w ∧ Reads s.src (c.rest ++ [l]) s'.src ∧
      Shows s' l (c.val v) ∧ s'.code = s.code ++ c.code v ∧ s'.code.length ≤ 512 := by
  have hv := hs.val_name
  unfold script at h
  split at h
  · rename_i hre
    obtain ⟨-, x₁, r₁, _, h₁, -, -, hp, x₂, r₂, _, h₂, -, -, -, x₃, r₃, _, h₃, -, hfit, hr, x₄, r₄, _,
      h₄, -, -, hsemi, x₅, r₅, _, h₅, -, -, -, rfl⟩ := h
    obtain rfl : x₁ = .lparen := eq_of_token (expect_ok.mp hp) (by simp)
    obtain rfl : x₃ = .rparen := eq_of_token (expect_ok.mp hr) (by simp)
    obtain rfl : x₄ = .semicolon := eq_of_token (expect_ok.mp hsemi) (by simp)
    refine ⟨.reboot x₂, x₅, hre.symm,
      .cons h₁ (.cons h₂ (.cons h₃ (.cons h₄ (.cons h₅ .nil)))), ?_, ?_, ?_⟩
    · rw [← hv]
      exact shows_next
    · simp [Clause.code, hv]
    · simpa using hfit
  · rename_i hre
    obtain ⟨-, x₁, r₁, _, h₁, -, -, hp, x₂, r₂, _, h₂, -, hfit, hr, x₃, r₃, _, h₃, -, -, hsemi, x₄, r₄,
      _, h₄, -, -, -, rfl⟩ := h
    obtain rfl : x₁ = .lparen := eq_of_token (expect_ok.mp hp) (by simp)
    obtain rfl : x₂ = .rparen := eq_of_token (expect_ok.mp hr) (by simp)
    obtain rfl : x₃ = .semicolon := eq_of_token (expect_ok.mp hsemi) (by simp)
    refine ⟨.call w hre, x₄, rfl, .cons h₁ (.cons h₂ (.cons h₃ (.cons h₄ .nil))), ?_, ?_, ?_⟩
    · rw [← hv]
      exact shows_next
    · simp [Clause.code]
    · simpa using hfit

/-- A call that was compiled was read from the text, and its code has been emitted. -/
theorem compileStatement_inv (hs : Shows s (.name w) v) (hroom : s.code.length ≤ 512)
    (h : compileStatement s = .ok s') : w.length < 64 ∧ ∃ (c : Clause) (l : Lexeme), c.name = w ∧
      Reads s.src (c.rest ++ [l]) s'.src ∧ Shows s' l (c.val v) ∧ s'.code = s.code ++ c.code v ∧
      s'.code.length ≤ 512 := by
  rw [compileStatement_eq hs.token, hs.name w rfl] at h
  split at h
  · rename_i hw
    obtain ⟨ls, hls⟩ := (runAll_eq_ok hroom).mp h
    exact ⟨hw, along_script hs hls⟩
  · cases h

theorem script_along (hs : Shows s (.name c.name) v)
    (hfit : s.code.length + (c.code v).length ≤ 512) (h : Reads s.src (c.rest ++ [l]) rest) :
    ∃ s', Along (script c.name) s (c.rest ++ [l]) s' ∧ s'.src = rest ∧ Shows s' l (c.val v) ∧
      s'.code = s.code ++ c.code v := by
  have hv := hs.val_name
  have hroom : s.code.length ≤ 512 := Nat.le_of_add_right_le hfit
  cases c with
  | reboot arg =>
    obtain ⟨r₁, h₁, h⟩ := h.uncons
    obtain ⟨r₂, h₂, h⟩ := h.uncons
    obtain ⟨r₃, h₃, h⟩ := h.uncons
    obtain ⟨r₄, h₄, h⟩ := h.uncons
    obtain ⟨r₅, h₅, h⟩ := h.uncons
    cases h
    have hcode : rebootCode (arg.val s.val) = (Clause.reboot arg).code v := by rw [hv]; rfl
    refine ⟨_, ⟨rfl, _, r₁, _, h₁, rfl, ?_, rfl, _, r₂, _, h₂, rfl, ?_, rfl, _, r₃, _, h₃, rfl, ?_, rfl,
      _, r₄, _, h₄, rfl, ?_, rfl, _, rest, _, h₅, rfl, ?_, rfl, rfl⟩, rfl, ?_, ?_⟩
    · simpa using hroom
    · simpa using hroom
    · simpa [hcode] using hfit
    · simpa [hcode] using hfit
    · simpa [hcode] using hfit
    · rw [← hv]
      exact shows_next
    · simp [hcode]
  | call w hw =>
    obtain ⟨r₁, h₁, h⟩ := h.uncons
    obtain ⟨r₂, h₂, h⟩ := h.uncons
    obtain ⟨r₃, h₃, h⟩ := h.uncons
    obtain ⟨r₄, h₄, h⟩ := h.uncons
    cases h
    unfold script
    rw [if_neg (show (Clause.call w hw).name ≠ rebootName from hw)]
    have hcode : otherCode (Clause.call w hw).name = (Clause.call w hw).code v := rfl
    refine ⟨_, ⟨rfl, _, r₁, _, h₁, rfl, ?_, rfl, _, r₂, _, h₂, rfl, ?_, rfl, _, r₃, _, h₃, rfl, ?_, rfl,
      _, rest, _, h₄, rfl, ?_, rfl, rfl⟩, rfl, ?_, ?_⟩
    · simpa using hroom
    · simpa [hcode] using hfit
    · simpa [hcode] using hfit
    · simpa [hcode] using hfit
    · rw [← hv]
      exact shows_next
    · simp [hcode]

/-- A call that is in the text is compiled if its name and its code fit. -/
theorem compileStatement_reads (hs : Shows s (.name c.name) v) (hw : c.name.length < 64)
    (hfit : s.code.length + (c.code v).length ≤ 512) (h : Reads s.src (c.rest ++ [l]) rest) :
    ∃ s', compileStatement s = .ok s' ∧ s'.src = rest ∧ Shows s' l (c.val v) ∧
      s'.code = s.code ++ c.code v := by
  have hroom : s.code.length ≤ 512 := Nat.le_of_add_right_le hfit
  obtain ⟨s', halong, hs'⟩ := script_along hs hfit h
  refine ⟨s', ?_, hs'⟩
  rw [compileStatement_eq hs.token, hs.name _ rfl, if_pos hw]
  exact (runAll_eq_ok hroom).mpr ⟨_, halong⟩

theorem exists_clause {P : Clause → Prop} : (∃ c : Clause, c.name = w ∧ P c) ↔
    (w = rebootName ∧ ∃ arg, P (.reboot arg)) ∨ ∃ hw : w ≠ rebootName, P (.call w hw) := by
  constructor
  · rintro ⟨c, rfl, h⟩
    cases c with
    | reboot arg => exact .inl ⟨rfl, arg, h⟩
    | call w hw => exact .inr ⟨hw, h⟩
  · rintro (⟨rfl, arg, h⟩ | ⟨hw, h⟩)
    · exact ⟨.reboot arg, rfl, h⟩
    · exact ⟨.call w hw, rfl, h⟩

theorem not_full_nil {k : ℕ} (h : k ≤ 512) : ¬ 512 < k + ([] : Str).length := not_lt.mpr h

/-- The act passes behind the lexeme `x`. -/
def Act.Takes (a : Act) (x : Lexeme) : Prop := ∀ b s rest, a.ok (Act.next b s x rest) = true

/-- A word that is too long is read behind the lexemes that the acts take. -/
theorem hits_of_long {a : Act} {as : List Act} (h : List.Forall₂ Act.Takes as ls)
    (hok : a.ok s = true) (hts : ts <+: ls) (hread : Reads s.src ts rest) (hlong : Long rest) :
    Hits (a :: as) s := by
  induction h generalizing a s ts with
  | nil =>
    rw [List.prefix_nil.mp hts, reads_nil] at hread
    exact ⟨hok, .inl (hread ▸ hlong)⟩
  | @cons b x bs ls hb _ ih =>
    rcases List.prefix_cons_iff.mp hts with rfl | ⟨us, rfl, hus⟩
    · rw [reads_nil] at hread
      exact ⟨hok, .inl (hread ▸ hlong)⟩
    · obtain ⟨mid, hx, hread⟩ := hread.uncons
      exact ⟨hok, .inr ⟨x, mid, hx, .inr (ih (hb a s mid) hus hread)⟩⟩

theorem takes_expect {t : Token} {bs : Str} (h : x.token = t) : (Act.expect t bs).Takes x :=
  fun _ _ _ => expect_ok.mpr h

theorem hits_reboot (hs : Shows s (.name rebootName) v) (hroom : s.code.length ≤ 512) :
    Hits (script rebootName) s ↔ ∃ arg,
      (∃ ts rest, ts <+: [.lparen, arg, .rparen, .semicolon] ∧ Reads s.src ts rest ∧ Long rest) ∨
      ∃ x rest, Reads s.src [.lparen, arg, x] rest ∧
        512 < s.code.length + (rebootCode (arg.val v)).length := by
  have hv := hs.val_name
  constructor
  · rintro ⟨-, hl | ⟨x₁, r₁, h₁, hf | ⟨hp, hmore⟩⟩⟩
    · exact ⟨.eof, .inl ⟨[], _, List.nil_prefix, .nil, hl⟩⟩
    · exact absurd hf (not_full_nil hroom)
    obtain rfl : x₁ = .lparen := eq_of_token (expect_ok.mp hp) (by simp)
    rcases hmore with hl | ⟨arg, r₂, h₂, hf | ⟨-, hmore⟩⟩
    · exact ⟨.eof, .inl ⟨[.lparen], _, by simp, .cons h₁ .nil, hl⟩⟩
    · simp at hf
      omega
    refine ⟨arg, ?_⟩
    rcases hmore with hl | ⟨x₃, r₃, h₃, hmore⟩
    · exact .inl ⟨[.lparen, arg], _, by simp, .cons h₁ (.cons h₂ .nil), hl⟩
    -- the code has been emitted, and now a missing sign ends the statement
    by_cases hfull : 512 < s.code.length + (rebootCode (arg.val v)).length
    · exact .inr ⟨x₃, r₃, .cons h₁ (.cons h₂ (.cons h₃ .nil)), hfull⟩
    rcases hmore with hf | ⟨hr, hmore⟩
    · simp [hv] at hf
      omega
    obtain rfl : x₃ = .rparen := eq_of_token (expect_ok.mp hr) (by simp)
    rcases hmore with hl | ⟨x₄, r₄, h₄, hf | ⟨hsemi, hmore⟩⟩
    · exact .inl ⟨[.lparen, arg, .rparen], _, by simp, .cons h₁ (.cons h₂ (.cons h₃ .nil)), hl⟩
    · simp [hv] at hf
      omega
    obtain rfl : x₄ = .semicolon := eq_of_token (expect_ok.mp hsemi) (by simp)
    rcases hmore with hl | ⟨x₅, r₅, h₅, hf | hno⟩
    · exact .inl ⟨_, _, List.prefix_rfl, .cons h₁ (.cons h₂ (.cons h₃ (.cons h₄ .nil))), hl⟩
    · simp [hv] at hf
      omega
    · exact hno.elim
  · rintro ⟨arg, ⟨ts, rest, hts, hread, hl⟩ | ⟨x, rest, hread, hf⟩⟩
    · exact hits_of_long (.cons (takes_expect rfl) (.cons (fun _ _ _ => rfl) (.cons (takes_expect rfl)
        (.cons (takes_expect rfl) .nil)))) rfl hts hread hl
    · simp only [reads_cons, reads_nil] at hread
      obtain ⟨r₁, h₁, r₂, h₂, r₃, h₃, rfl⟩ := hread
      refine ⟨rfl, .inr ⟨_, _, h₁, .inr ⟨rfl, .inr ⟨_, _, h₂, .inr ⟨rfl, .inr ⟨_, _, h₃, .inl ?_⟩⟩⟩⟩⟩⟩
      simpa [hv] using hf

theorem hits_call (hw : w ≠ rebootName) (hroom : s.code.length ≤ 512) :
    Hits (script w) s ↔
      (∃ ts rest, ts <+: [.lparen, .rparen, .semicolon] ∧ Reads s.src ts rest ∧ Long rest) ∨
      ∃ x rest, Reads s.src [.lparen, x] rest ∧ 512 < s.code.length + (otherCode w).length := by
  unfold script
  rw [if_neg hw]
  constructor
  · rintro ⟨-, hl | ⟨x₁, r₁, h₁, hf | ⟨hp, hmore⟩⟩⟩
    · exact .inl ⟨[], _, List.nil_prefix, .nil, hl⟩
    · exact absurd hf (not_full_nil hroom)
    obtain rfl : x₁ = .lparen := eq_of_token (expect_ok.mp hp) (by simp)
    rcases hmore with hl | ⟨x₂, r₂, h₂, hmore⟩
    · exact .inl ⟨[.lparen], _, by simp, .cons h₁ .nil, hl⟩
    by_cases hfull : 512 < s.code.length + (otherCode w).length
    · exact .inr ⟨x₂, r₂, .cons h₁ (.cons h₂ .nil), hfull⟩
    rcases hmore with hf | ⟨hr, hmore⟩
    · simp at hf
      omega
    obtain rfl : x₂ = .rparen := eq_of_token (expect_ok.mp hr) (by simp)
    rcases hmore with hl | ⟨x₃, r₃, h₃, hf | ⟨hsemi, hmore⟩⟩
    · exact .inl ⟨[.lparen, .rparen], _, by simp, .cons h₁ (.cons h₂ .nil), hl⟩
    · simp at hf
      omega
    obtain rfl : x₃ = .semicolon := eq_of_token (expect_ok.mp hsemi) (by simp)
    rcases hmore with hl | ⟨x₄, r₄, h₄, hf | hno⟩
    · exact .inl ⟨_, _, List.prefix_rfl, .cons h₁ (.cons h₂ (.cons h₃ .nil)), hl⟩
    · simp at hf
      omega
    · exact hno.elim
  · rintro (⟨ts, rest, hts, hread, hl⟩ | ⟨x, rest, hread, hf⟩)
    · exact hits_of_long (.cons (takes_expect rfl) (.cons (takes_expect rfl)
        (.cons (takes_expect rfl) .nil))) rfl hts hread hl
    · simp only [reads_cons, reads_nil] at hread
      obtain ⟨r₁, h₁, r₂, h₂, rfl⟩ := hread
      refine ⟨rfl, .inr ⟨_, _, h₁, .inr ⟨rfl, .inr ⟨_, _, h₂, .inl ?_⟩⟩⟩⟩
      simpa using hf

theorem hits_script (hs : Shows s (.name w) v) (hroom : s.code.length ≤ 512) :
    Hits (script w) s ↔ ∃ c : Clause, c.name = w ∧
    ((∃ ts rest, ts <+: c.rest ∧ Reads s.src ts rest ∧ Long rest) ∨
      ∃ x rest, Reads s.src (c.opening ++ [x]) rest ∧ 512 < s.code.length + (c.code v).length) := by
  rw [exists_clause]
  by_cases hw : w = rebootName
  · subst hw
    rw [hits_reboot hs hroom]
    exact ⟨fun h => .inl ⟨rfl, h⟩, fun h => h.elim And.right fun ⟨hne, _⟩ => absurd rfl hne⟩
  · rw [hits_call hw hroom]
    exact ⟨fun h => .inr ⟨hw, h⟩, fun h => h.elim (fun ⟨he, _⟩ => absurd he hw) fun ⟨_, h⟩ => h⟩

/-- Where a call stores behind the end of an array. -/
theorem compileStatement_overrun (hs : Shows s (.name w) v) (hroom : s.code.length ≤ 512) :
    compileStatement s = .error .overrun ↔ 64 ≤ w.length ∨ ∃ c : Clause, c.name = w ∧
      ((∃ ts rest, ts <+: c.rest ∧ Reads s.src ts rest ∧ Long rest) ∨
        ∃ x rest, Reads s.src (c.opening ++ [x]) rest ∧
          512 < s.code.length + (c.code v).length) := by
  rw [compileStatement_eq hs.token, hs.name w rfl, ← hits_script hs hroom, ← runAll_overrun hroom]
  by_cases hw : w.length < 64
  · rw [if_pos hw]
    simp [hw]
  · rw [if_neg hw]
    simp [not_lt.mp hw]

/-! ## The header -/

theorem header_inv (h : header input = .ok s) : ∃ m l, IsMain m ∧
    Reads input (headerOf m ++ [l]) s.src ∧ Shows s l 0 ∧ s.code = [] := by
  rw [header_eq] at h
  obtain ⟨ls, -, x₁, r₁, _, h₁, -, -, hint, x₂, r₂, _, h₂, -, -, hname, x₃, r₃, _, h₃, -, -, hp, x₄,
    r₄, _, h₄, -, -, hr, x₅, r₅, _, h₅, -, -, hb, x₆, r₆, _, h₆, -, -, -, rfl⟩ :=
    (runAll_eq_ok (Nat.zero_le _)).mp h
  obtain rfl : x₁ = .int := eq_of_token (expect_ok.mp hint) (by simp)
  obtain rfl : x₃ = .lparen := eq_of_token (expect_ok.mp hp) (by simp)
  obtain rfl : x₄ = .rparen := eq_of_token (expect_ok.mp hr) (by simp)
  obtain rfl : x₅ = .lbrace := eq_of_token (expect_ok.mp hb) (by simp)
  have hm : IsMain x₂ := isMain_of_str (decide_eq_true_iff.mp hname)
  refine ⟨x₂, x₆, hm, .cons h₁ (.cons h₂ (.cons h₃ (.cons h₄ (.cons h₅ (.cons h₆ .nil))))), ?_, ?_⟩
  · have hv : x₂.val 0 = 0 := by rcases hm with rfl | rfl <;> rfl
    refine ⟨shows_next.toCurrent, ?_⟩
    show x₆.val (x₂.val 0) = _
    rw [hv]
  · simp

theorem takes_name (hm : IsMain m) : Act.name.Takes m := by
  intro b s rest
  rcases hm with rfl | rfl <;> exact decide_eq_true (rfl : mainName = mainName)

/-- Where the header stores behind the end of an array. -/
theorem header_overrun : header input = .error .overrun ↔
    ∃ m ts rest, IsMain m ∧ ts <+: headerOf m ∧ Reads input ts rest ∧ Long rest := by
  have hmain : IsMain (.name mainName) := .inl rfl
  rw [header_eq, runAll_overrun (Nat.zero_le _)]
  constructor
  · rintro ⟨-, hl | ⟨x₁, r₁, h₁, hf | ⟨hint, hmore⟩⟩⟩
    · exact ⟨_, [], _, hmain, List.nil_prefix, .nil, hl⟩
    · simp at hf
    obtain rfl : x₁ = .int := eq_of_token (expect_ok.mp hint) (by simp)
    rcases hmore with hl | ⟨m, r₂, h₂, hf | ⟨hname, hmore⟩⟩
    · exact ⟨_, [.int], _, hmain, by simp [headerOf], .cons h₁ .nil, hl⟩
    · simp at hf
    have hm : IsMain m := isMain_of_str (decide_eq_true_iff.mp hname)
    refine ⟨m, ?_⟩
    rcases hmore with hl | ⟨x₃, r₃, h₃, hf | ⟨hp, hmore⟩⟩
    · exact ⟨[.int, m], _, hm, by simp [headerOf], .cons h₁ (.cons h₂ .nil), hl⟩
    · simp at hf
    obtain rfl : x₃ = .lparen := eq_of_token (expect_ok.mp hp) (by simp)
    rcases hmore with hl | ⟨x₄, r₄, h₄, hf | ⟨hr, hmore⟩⟩
    · exact ⟨[.int, m, .lparen], _, hm, by simp [headerOf], .cons h₁ (.cons h₂ (.cons h₃ .nil)), hl⟩
    · simp at hf
    obtain rfl : x₄ = .rparen := eq_of_token (expect_ok.mp hr) (by simp)
    rcases hmore with hl | ⟨x₅, r₅, h₅, hf | ⟨hb, hmore⟩⟩
    · exact ⟨[.int, m, .lparen, .rparen], _, hm, by simp [headerOf],
        .cons h₁ (.cons h₂ (.cons h₃ (.cons h₄ .nil))), hl⟩
    · simp at hf
    obtain rfl : x₅ = .lbrace := eq_of_token (expect_ok.mp hb) (by simp)
    rcases hmore with hl | ⟨x₆, r₆, h₆, hf | hno⟩
    · exact ⟨headerOf m, _, hm, List.prefix_rfl,
        .cons h₁ (.cons h₂ (.cons h₃ (.cons h₄ (.cons h₅ .nil)))), hl⟩
    · simp at hf
    · exact hno.elim
  · rintro ⟨m, ts, rest, hm, hts, hread, hl⟩
    exact hits_of_long (.cons (takes_expect rfl) (.cons (takes_name hm) (.cons (takes_expect rfl)
      (.cons (takes_expect rfl) (.cons (takes_expect rfl) .nil))))) rfl hts hread hl

theorem header_of_reads (hm : IsMain m) (h : Reads input (headerOf m ++ [l]) rest) :
    ∃ s, header input = .ok s ∧ s.src = rest ∧ Shows s l 0 ∧ s.code = [] := by
  obtain ⟨s, hs⟩ : ∃ s, header input = .ok s := by
    simp only [headerOf, List.cons_append, List.nil_append, reads_cons] at h
    obtain ⟨r₁, h₁, r₂, h₂, r₃, h₃, r₄, h₄, r₅, h₅, r₆, h₆, -⟩ := h
    rw [header_eq]
    have hroom : 0 ≤ 512 := by decide
    exact ⟨_, (runAll_eq_ok (Nat.zero_le _)).mpr ⟨_, rfl, _, r₁, _, h₁, rfl, hroom, rfl, _, r₂, _, h₂, rfl,
      hroom, takes_name hm _ _ _, _, r₃, _, h₃, rfl, hroom, rfl, _, r₄, _, h₄, rfl, hroom, rfl, _, r₅, _, h₅,
      rfl, hroom, rfl, _, r₆, _, h₆, rfl, hroom, rfl, rfl⟩⟩
  obtain ⟨m', l', -, hread, hshow, hcode⟩ := header_inv hs
  obtain ⟨heq, hsrc⟩ := h.det hread rfl
  obtain ⟨-, rfl⟩ : m = m' ∧ l = l' := by simpa [headerOf] using heq
  exact ⟨s, hs, hsrc.symm, hshow, hcode⟩

/-! ## The loop -/

structure Fits (cs : List Clause) : Prop where
  names : ∀ c ∈ cs, c.name.length < 64
  room : (codeOf cs).length ≤ 512

theorem fits_concat : Fits (cs ++ [c]) ↔
    Fits cs ∧ c.name.length < 64 ∧ (codeOf cs).length + (c.code (valOf cs)).length ≤ 512 := by
  constructor
  · rintro ⟨hnames, hroom⟩
    rw [List.forall_mem_append, List.forall_mem_singleton] at hnames
    rw [codeOf_concat, List.length_append] at hroom
    exact ⟨⟨hnames.1, by omega⟩, hnames.2, hroom⟩
  · rintro ⟨hcs, hname, hroom⟩
    refine ⟨?_, ?_⟩
    · rw [List.forall_mem_append, List.forall_mem_singleton]
      exact ⟨hcs.names, hname⟩
    · rwa [codeOf_concat, List.length_append]

/-- The loop looks at the lexeme `l` behind the calls `cs`. -/
structure At (input : Str) (m : Lexeme) (cs : List Clause) (l : Lexeme) (s : State) : Prop
    extends Fits cs where
  main : IsMain m
  reads : Reads input (front m cs ++ [l]) s.src
  current : Shows s l (valOf cs)
  code : s.code = codeOf cs

theorem At.code_room (h : At input m cs l s) : s.code.length ≤ 512 := by
  rw [h.code]
  exact h.room

theorem At.of_header (h : header input = .ok s) : ∃ m l, At input m [] l s := by
  obtain ⟨m, l, hm, hread, hshow, hcode⟩ := header_inv h
  refine ⟨m, l, ⟨nofun, Nat.zero_le _⟩, hm, ?_, hshow, hcode⟩
  rwa [front, List.flatMap_nil, List.append_nil]

theorem reads_front_concat : Reads input (front m (cs ++ [c]) ++ [l]) rest ↔
    ∃ mid, Reads input (front m cs ++ [.name c.name]) mid ∧ Reads mid (c.rest ++ [l]) rest := by
  rw [← Reads.append_iff, front_concat]
  simp [Clause.lexemes]

theorem At.concat (h : At input m cs (.name c.name) s) (hw : c.name.length < 64)
    (hread : Reads s.src (c.rest ++ [l]) s'.src) (hshow : Shows s' l (c.val (valOf cs)))
    (hcode : s'.code = s.code ++ c.code (valOf cs)) (hroom : s'.code.length ≤ 512) :
    At input m (cs ++ [c]) l s' where
  toFits := fits_concat.mpr ⟨h.toFits, hw, by rwa [← h.code, ← List.length_append, ← hcode]⟩
  main := h.main
  reads := reads_front_concat.mpr ⟨_, h.reads, hread⟩
  current := by rwa [valOf_concat]
  code := by rw [hcode, h.code, codeOf_concat]

theorem Current.eq_name (h : Current s l) (htok : s.token = .NAME) : l = .name s.str := by
  have hl : l.token = .NAME := h.token ▸ htok
  cases l with
  | name w => rw [h.name w rfl]
  | _ => cases hl

/-- An iteration takes a call from the text. -/
theorem At.step (h : At input m cs l s) (htok : s.token = .NAME)
    (hc : compileStatement s = .ok s') : ∃ c l', At input m (cs ++ [c]) l' s' := by
  obtain rfl := h.current.eq_name htok
  obtain ⟨hw, c, l', hname, hread, hshow, hcode, hroom⟩ :=
    compileStatement_inv h.current h.code_room hc
  rw [← hname] at h hw
  exact ⟨c, l', h.concat hw hread hshow hcode hroom⟩

/-- Where the loop ends: in front of a brace or the end of the text, or in a call. -/
theorem At.loop_inv {r : Except Stop State} (h : At input m cs l s) (hloop : loop n s = some r) :
    ∃ cs' l' s', At input m cs' l' s' ∧
      (((s'.token = .RBRACE ∨ s'.token = .EOF) ∧ r = .ok s') ∨
        ∃ e, s'.token = .NAME ∧ compileStatement s' = .error e ∧ r = .error e) := by
  induction n generalizing cs l s with
  | zero => cases hloop
  | succ n ih =>
    by_cases hend : s.token = .RBRACE ∨ s.token = .EOF
    · have hdone : loop (n + 1) s = some (.ok s) := if_pos hend
      rw [hdone] at hloop
      exact ⟨cs, l, s, h, .inl ⟨hend, (Option.some.inj hloop).symm⟩⟩
    obtain ⟨hr, he⟩ := not_or.mp hend
    by_cases htok : s.token = .NAME
    swap
    · rw [loop_idle ⟨htok, hr, he⟩] at hloop
      cases hloop
    rw [loop_succ hr he] at hloop
    cases hc : compileStatement s with
    | error e =>
      rw [hc] at hloop
      exact ⟨cs, l, s, h, .inr ⟨e, htok, hc, (Option.some.inj hloop).symm⟩⟩
    | ok s' =>
      rw [hc] at hloop
      obtain ⟨c, l', h'⟩ := h.step htok hc
      exact ih h' hloop

/-- Every outcome of dcc comes from the header, from a call or from the end of a program. -/
theorem dcc_inv {r : Except Stop Str} (h : dcc n created input = some r) :
    (∃ e, header input = .error e ∧ r = .error e) ∨ ∃ m cs l s, At input m cs l s ∧
      (((s.token = .RBRACE ∨ s.token = .EOF) ∧ r = finish created s) ∨
        ∃ e, s.token = .NAME ∧ compileStatement s = .error e ∧ r = .error e) := by
  cases hs : header input with
  | error e =>
    left
    unfold dcc at h
    rw [hs] at h
    exact ⟨e, rfl, (Option.some.inj h).symm⟩
  | ok s =>
    right
    rw [dcc_of_header hs] at h
    obtain ⟨r', hloop, rfl⟩ := Option.map_eq_some_iff.mp h
    obtain ⟨m, l, hat⟩ := At.of_header hs
    obtain ⟨cs, l', s', hat', ⟨hend, rfl⟩ | ⟨e, htok, hc, rfl⟩⟩ := hat.loop_inv hloop
    · exact ⟨m, cs, l', s', hat', .inl ⟨hend, rfl⟩⟩
    · exact ⟨m, cs, l', s', hat', .inr ⟨e, htok, hc, rfl⟩⟩

/-! ## Reaching a call -/

theorem dcc_overrun {t : State} (hs : header input = .ok s) (hcomes : Comes s t)
    (h : loop n t = some (.error .overrun)) : Overruns created input := by
  obtain ⟨k, hk⟩ := hcomes
  refine ⟨k + n, ?_⟩
  rw [dcc_of_header hs, hk, h]
  rfl

theorem loop_error {e : Stop} (htok : s.token = .NAME) (h : compileStatement s = .error e) :
    loop 1 s = some (.error e) := by
  rw [loop_succ (by rw [htok]; nofun) (by rw [htok]; nofun), h]

theorem Comes.concat {t t' : State} (h : Comes s t) (htok : t.token = .NAME)
    (hc : compileStatement t = .ok t') : Comes s t' := by
  obtain ⟨k, hk⟩ := h
  refine ⟨k + 1, fun n => ?_⟩
  rw [Nat.add_assoc, hk, Nat.add_comm, loop_succ (by rw [htok]; nofun) (by rw [htok]; nofun), hc]

/-- dcc gets to every call of a text that begins like a program, unless something before does not fit
and it stores behind the end of an array. -/
theorem reaches (created : Bool) (hm : IsMain m) (h : Reads input (front m cs ++ [l]) rest) :
    (Overruns created input ∧ ¬ Fits cs) ∨ ∃ s₀ s, header input = .ok s₀ ∧ Comes s₀ s ∧
      At input m cs l s ∧ s.src = rest := by
  induction cs using List.reverseRecOn generalizing l rest with
  | nil =>
    right
    rw [front, List.flatMap_nil, List.append_nil] at h
    obtain ⟨s, hs, hsrc, hshow, hcode⟩ := header_of_reads hm h
    refine ⟨s, s, hs, ⟨0, fun n => by rw [Nat.zero_add]⟩, ⟨⟨nofun, Nat.zero_le _⟩, hm, ?_, hshow,
      hcode⟩, hsrc⟩
    rwa [front, List.flatMap_nil, List.append_nil, hsrc]
  | append_singleton cs c ih =>
    obtain ⟨mid, hfront, hread⟩ := reads_front_concat.mp h
    rw [fits_concat]
    rcases ih hfront with ⟨hover, hno⟩ | ⟨s₀, s, hs₀, hcomes, hat, rfl⟩
    · exact .inl ⟨hover, fun hfit => hno hfit.1⟩
    have htok : s.token = .NAME := hat.current.token
    by_cases hfit : c.name.length < 64 ∧ (codeOf cs).length + (c.code (valOf cs)).length ≤ 512
    · rw [← hat.code] at hfit
      obtain ⟨s', hc, rfl, hshow, hcode⟩ := compileStatement_reads hat.current hfit.1 hfit.2 hread
      refine .inr ⟨s₀, s', hs₀, hcomes.concat htok hc, hat.concat hfit.1 hread hshow hcode ?_, rfl⟩
      rw [hcode, List.length_append]
      exact hfit.2
    · -- the call does not fit
      refine .inl ⟨dcc_overrun hs₀ hcomes (loop_error htok ?_), fun h => hfit h.2⟩
      rw [compileStatement_overrun hat.current hat.code_room, hat.code]
      rcases not_and_or.mp hfit with hw | hfull
      · exact .inl (not_lt.mp hw)
      · have hsplit : c.rest ++ [l] = (c.opening ++ [.rparen]) ++ [.semicolon, l] := by
          simp [Clause.rest]
        rw [hsplit, Reads.append_iff] at hread
        obtain ⟨mid, hopen, -⟩ := hread
        exact .inr ⟨c, rfl, .inr ⟨.rparen, mid, hopen, not_le.mp hfull⟩⟩

/-- The loop ends in front of the brace. -/
theorem dcc_of_comes {t : State} (hs : header input = .ok s) (hcomes : Comes s t)
    (htok : t.token = .RBRACE) : ∃ n, dcc n created input = some (finish created t) := by
  obtain ⟨k, hk⟩ := hcomes
  have hdone : loop 1 t = some (.ok t) := if_pos (.inl htok)
  refine ⟨k + 1, ?_⟩
  rw [dcc_of_header hs, hk, hdone]
  rfl

/-! ## The output -/

theorem finish_eq : finish created s = runAll endScript s >>= fun s =>
    if created then .ok (elfHeader s.code.length ++ s.code) else .error .cannotCreate := by
  unfold finish endScript
  simp only [runAll_cons, runAll_nil, run_expect, emitCall_eq, bind_assoc, pure_bind]

/-- The text is the program with the calls `cs`, and it fits; dcc also reads the token behind it. -/
structure Accepted (input : Str) (cs : List Clause) : Prop where
  reads : ∃ m x rest, IsMain m ∧ Reads input (front m cs ++ [.rbrace] ++ [x]) rest
  fits : Fits cs
  room : (codeOf cs ++ callCode 2).length ≤ 512

def compiled (code : Str) : Str := elfHeader code.length ++ code

theorem finish_ok (h : At input m cs l s) (hok : finish created s = .ok out) :
    l = .rbrace ∧ Accepted input cs ∧ created = true ∧ out = compiled (codeOf cs ++ callCode 2) := by
  rw [finish_eq] at hok
  obtain ⟨t, ht, hout⟩ := bind_eq_ok.mp hok
  obtain ⟨_, hbrace, x, rest, _, hx, -, hroom, -, rfl⟩ := (runAll_eq_ok h.code_room).mp ht
  have hl : l = .rbrace := by
    have htok := expect_ok.mp hbrace
    rw [h.current.token] at htok
    cases l <;> first | rfl | cases htok
  subst hl
  have hcode : ((Act.expect .RBRACE (callCode 2)).next s x rest).code = codeOf cs ++ callCode 2 := by
    rw [code_next, h.code, emits_expect]
  rw [emits_expect, h.code, ← List.length_append] at hroom
  refine ⟨rfl, ⟨⟨m, x, rest, h.main, Reads.append_iff.mpr ⟨_, h.reads, .cons hx .nil⟩⟩, h.toFits,
    hroom⟩, ?_⟩
  rw [hcode] at hout
  cases created with
  | false => cases hout
  | true =>
    cases hout
    exact ⟨rfl, rfl⟩

theorem finish_reads {x : Lexeme} (h : At input m cs .rbrace s) (hx : lexeme s.src = .ok (x, rest))
    (hroom : (codeOf cs ++ callCode 2).length ≤ 512) :
    finish true s = .ok (compiled (codeOf cs ++ callCode 2)) := by
  have hbrace : (Act.expect .RBRACE (callCode 2)).ok s = true := expect_ok.mpr h.current.token
  have hfit : s.code.length + ((Act.expect .RBRACE (callCode 2)).emits s).length ≤ 512 := by
    rwa [emits_expect, h.code, ← List.length_append]
  have hrun : runAll endScript s = .ok ((Act.expect .RBRACE (callCode 2)).next s x rest) :=
    (runAll_eq_ok h.code_room).mpr ⟨[x], hbrace, x, rest, [], hx, rfl, hfit, rfl, rfl⟩
  rw [finish_eq, hrun, ok_bind, if_pos rfl, code_next, h.code, emits_expect]
  rfl

/-- An output of dcc is the code of a program that it has read. -/
theorem accepted_of_ok (h : dcc n created input = some (.ok out)) :
    ∃ cs, Accepted input cs ∧ created = true ∧ out = compiled (codeOf cs ++ callCode 2) := by
  rcases dcc_inv h with ⟨e, -, he⟩ | ⟨m, cs, l, s, hat, ⟨-, hend⟩ | ⟨e, -, -, he⟩⟩
  · cases he
  · exact ⟨cs, (finish_ok hat hend.symm).2⟩
  · cases he

/-- dcc writes the code of every program that fits. -/
theorem ok_of_accepted (h : Accepted input cs) :
    ∃ n, dcc n true input = some (.ok (compiled (codeOf cs ++ callCode 2))) := by
  obtain ⟨m, x, rest, hm, hread⟩ := h.reads
  obtain ⟨mid, hfront, hx⟩ := Reads.append_iff.mp hread
  obtain ⟨_, hx, -⟩ := hx.uncons
  rcases reaches true hm hfront with ⟨-, hno⟩ | ⟨s₀, s, hs₀, hcomes, hat, rfl⟩
  · exact absurd h.fits hno
  obtain ⟨n, hn⟩ := dcc_of_comes hs₀ hcomes hat.current.token
  exact ⟨n, hn.trans (congrArg some (finish_reads hat hx h.room))⟩

/-! ## Arrays -/

/-- The text begins like a program, and then comes something that does not fit into the arrays of dcc:
a word or a string of 128 bytes or more in a place where dcc reads a token, the name of a call with 64
bytes or more, or a call or the end of the program whose code goes past 512 bytes. -/
def Overlong (input : Str) : Prop := ∃ m cs, IsMain m ∧
  ((∃ ts rest, ts <+: front m cs ++ [.rbrace] ∧ Reads input ts rest ∧ 128 ≤ (text rest).length) ∨
  (∃ w rest, Reads input (front m cs ++ [.name w]) rest ∧ 64 ≤ w.length) ∨
  (∃ (c : Clause) (x : Lexeme) (rest : Str),
    Reads input (front m cs ++ [.name c.name] ++ c.opening ++ [x]) rest ∧
      512 < (codeOf (cs ++ [c])).length) ∨
  ∃ x rest, Reads input (front m cs ++ [.rbrace] ++ [x]) rest ∧
    512 < (codeOf cs ++ callCode 2).length)

theorem prefix_append_cases {α : Type} {xs as bs : List α} (h : xs <+: as ++ bs) :
    xs <+: as ∨ ∃ ys, xs = as ++ ys ∧ ys <+: bs := by
  obtain ⟨zs, hzs⟩ := h
  rcases List.append_eq_append_iff.mp hzs with ⟨ys, rfl, rfl⟩ | ⟨ys, rfl, rfl⟩
  · exact .inl (List.prefix_append _ _)
  · exact .inr ⟨ys, rfl, List.prefix_append _ _⟩

/-- A beginning of a program ends in its header, in one of its calls or at its end. -/
theorem prefix_front (h : ts <+: front m cs) : ts <+: headerOf m ∨
    ∃ cs' c ms, ts = front m cs' ++ [.name (c : Clause).name] ++ ms ∧ ms <+: c.rest := by
  induction cs using List.reverseRecOn with
  | nil =>
    left
    rwa [front, List.flatMap_nil, List.append_nil] at h
  | append_singleton cs c ih =>
    rw [front_concat] at h
    rcases prefix_append_cases h with h | ⟨ys, rfl, hys⟩
    · exact ih h
    cases ys with
    | nil =>
      exact ih (by simp)
    | cons y ys =>
      right
      obtain ⟨rfl, htail⟩ := List.cons_prefix_cons.mp hys
      exact ⟨cs, c, ys, by simp, htail⟩

theorem finish_overrun (h : At input m cs l s) : finish created s = .error .overrun ↔
    l = .rbrace ∧ (Long s.src ∨ ∃ x rest, lexeme s.src = .ok (x, rest) ∧
      512 < (codeOf cs ++ callCode 2).length) := by
  have hlast : finish created s = .error .overrun ↔ runAll endScript s = .error .overrun := by
    rw [finish_eq, bind_eq_error]
    refine or_iff_left ?_
    rintro ⟨t, -, ht⟩
    cases created <;> cases ht
  have hbrace : (Act.expect .RBRACE (callCode 2)).ok s = true ↔ l = .rbrace := by
    rw [expect_ok, h.current.token]
    constructor
    · intro hl
      cases l <;> first | rfl | cases hl
    · rintro rfl
      rfl
  rw [hlast, runAll_overrun h.code_room]
  simp only [endScript, Hits, hbrace, or_false, emits_expect, h.code, List.length_append]

/-- The arrays of dcc are overrun by exactly those texts. -/
theorem overruns_of_overlong (h : Overlong input) : Overruns created input := by
  obtain ⟨m, cs, hm, h⟩ := h
  -- a call or the end of the program where a store goes wrong
  have hcall : ∀ {cs : List Clause} {w mid : Str}, Reads input (front m cs ++ [.name w]) mid →
      (64 ≤ w.length ∨ ∃ c : Clause, c.name = w ∧
        ((∃ ts rest, ts <+: c.rest ∧ Reads mid ts rest ∧ Long rest) ∨
          ∃ x rest, Reads mid (c.opening ++ [x]) rest ∧ 512 < (codeOf (cs ++ [c])).length)) →
      Overruns created input := by
    intro cs w mid hread hbad
    rcases reaches created hm hread with ⟨hover, -⟩ | ⟨s₀, s, hs₀, hcomes, hat, rfl⟩
    · exact hover
    refine dcc_overrun hs₀ hcomes (loop_error hat.current.token ?_)
    rw [compileStatement_overrun hat.current hat.code_room]
    simpa only [codeOf_concat, List.length_append, hat.code] using hbad
  have hend : ∀ {mid : Str}, Reads input (front m cs ++ [.rbrace]) mid →
      (Long mid ∨ ∃ x rest, lexeme mid = .ok (x, rest) ∧ 512 < (codeOf cs ++ callCode 2).length) →
      Overruns created input := by
    intro mid hread hbad
    rcases reaches created hm hread with ⟨hover, -⟩ | ⟨s₀, s, hs₀, hcomes, hat, rfl⟩
    · exact hover
    obtain ⟨n, hn⟩ := dcc_of_comes hs₀ hcomes hat.current.token
    exact ⟨n, hn.trans (congrArg some ((finish_overrun hat).mpr ⟨rfl, hbad⟩))⟩
  have hfront : ∀ ts rest, ts <+: front m cs → Reads input ts rest → Long rest →
      Overruns created input := by
    intro ts rest hts hread hlong
    rcases prefix_front hts with hhead | ⟨cs', c, ms, rfl, hms⟩
    · refine ⟨0, ?_⟩
      unfold dcc
      rw [header_overrun.mpr ⟨m, ts, rest, hm, hhead, hread, hlong⟩]
    · obtain ⟨mid, hmid, hread⟩ := Reads.append_iff.mp hread
      exact hcall hmid (.inr ⟨c, rfl, .inl ⟨ms, rest, hms, hread, hlong⟩⟩)
  rcases h with ⟨ts, rest, hts, hread, hlong⟩ | ⟨w, rest, hread, hw⟩ | ⟨c, x, rest, hread, hfull⟩ |
    ⟨x, rest, hread, hfull⟩
  · rcases prefix_append_cases hts with hts | ⟨ys, rfl, hys⟩
    · exact hfront ts rest hts hread hlong
    rcases List.prefix_cons_iff.mp hys with rfl | ⟨t, rfl, ht⟩
    · rw [List.append_nil] at hread
      exact hfront _ rest List.prefix_rfl hread hlong
    · rw [List.prefix_nil.mp ht] at hread
      exact hend hread (.inl hlong)
  · exact hcall hread (.inl hw)
  · rw [List.append_assoc, Reads.append_iff] at hread
    obtain ⟨mid, hmid, hread⟩ := hread
    exact hcall hmid (.inr ⟨c, rfl, .inr ⟨x, rest, hread, hfull⟩⟩)
  · obtain ⟨mid, hmid, hread⟩ := Reads.append_iff.mp hread
    obtain ⟨_, hx, -⟩ := hread.uncons
    exact hend hmid (.inr ⟨x, _, hx, hfull⟩)

theorem overlong_of_overruns (h : Overruns created input) : Overlong input := by
  obtain ⟨n, h⟩ := h
  rcases dcc_inv h with ⟨e, hhead, he⟩ | ⟨m, cs, l, s, hat, ⟨-, hend⟩ | ⟨e, htok, hc, he⟩⟩
  · cases he
    obtain ⟨m, ts, rest, hm, hts, hread, hlong⟩ := header_overrun.mp hhead
    refine ⟨m, [], hm, .inl ⟨ts, rest, hts.trans ?_, hread, hlong⟩⟩
    simp [front]
  · obtain ⟨rfl, hlong | ⟨x, rest, hx, hfull⟩⟩ := (finish_overrun hat).mp hend.symm
    · exact ⟨m, cs, hat.main, .inl ⟨_, _, List.prefix_rfl, hat.reads, hlong⟩⟩
    · exact ⟨m, cs, hat.main, .inr (.inr (.inr ⟨x, rest, Reads.append_iff.mpr
        ⟨_, hat.reads, .cons hx .nil⟩, hfull⟩))⟩
  · cases he
    obtain rfl := hat.current.eq_name htok
    rw [compileStatement_overrun hat.current hat.code_room] at hc
    rcases hc with hw | ⟨c, hname, ⟨ts, rest, hts, hread, hlong⟩ | ⟨x, rest, hread, hfull⟩⟩
    · exact ⟨m, cs, hat.main, .inr (.inl ⟨_, _, hat.reads, hw⟩)⟩
    · refine ⟨m, cs ++ [c], hat.main, .inl ⟨_, _, ?_, Reads.append_iff.mpr ⟨_, hat.reads, hread⟩,
        hlong⟩⟩
      obtain ⟨us, hus⟩ := hts
      refine ⟨us ++ [.rbrace], ?_⟩
      rw [front_concat, Clause.lexemes, ← hus, hname]
      simp
    · refine ⟨m, cs, hat.main, .inr (.inr (.inl ⟨c, x, rest, ?_, ?_⟩))⟩
      · rw [List.append_assoc, hname]
        exact Reads.append_iff.mpr ⟨_, hat.reads, hread⟩
      · rwa [codeOf_concat, List.length_append, ← hat.code]

/-- For every text: dcc stores behind the end of one of its arrays exactly if the text is too long for
them somewhere. -/
theorem dcc_within_arrays_iff (created : Bool) (input : Str) :
    ¬ Overruns created input ↔ ¬ Overlong input :=
  not_congr ⟨overlong_of_overruns, overruns_of_overlong⟩

/-- `int main(){` -/
def mainHead : Str := lit ['i', 'n', 't', ' ', 'm', 'a', 'i', 'n', '(', ')', '{']

/-- A word of 128 letters, a call of a name of 64 letters, and 73 times `exit();`: each of these texts
is shorter than 600 bytes, and each overruns another array. -/
theorem arrays_overrun :
    Overruns true (lit ['i', 'n', 't', ' '] ++ List.replicate 128 (chr 'a')) ∧
    Overruns true (mainHead ++ List.replicate 64 (chr 'a') ++ lit ['(', ')', ';', '}']) ∧
    Overruns true (mainHead ++ (List.replicate 73 (lit ['e', 'x', 'i', 't', '(', ')', ';'])).flatten ++
      lit ['}']) := by
  refine ⟨⟨0, ?_⟩, ⟨1, ?_⟩, ⟨74, ?_⟩⟩ <;> decide +kernel

end DuckoUnix.Dcc
