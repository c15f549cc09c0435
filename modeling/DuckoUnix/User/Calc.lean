import Mathlib.Data.BitVec
import Mathlib.Data.List.TakeWhile

/-!
# The calculator

`calculate` of `calc.c` on a string without its NUL, with `int` arithmetic modulo 2³². The `/` of the
source is compiled to `idiv`, which traps if the divisor is 0 or if the quotient is no `int`. A number
is read modulo 2³² too, so it can be -1.
-/

namespace DuckoUnix.Calc

abbrev Str := List (BitVec 8)

def chr (c : Char) : BitVec 8 := BitVec.ofNat 8 c.toNat

def isBlank (c : BitVec 8) : Bool := c = chr ' ' || c = chr '\t'

def isDigit (c : BitVec 8) : Bool := chr '0' ≤ c && c ≤ chr '9'

def isOp (c : BitVec 8) : Bool := c = chr '+' || c = chr '-' || c = chr '*' || c = chr '/'

def INT_MIN : BitVec 32 := BitVec.ofNat 32 (2 ^ 31)

/-- How `calculate` stops without a result. -/
inductive Stop
  /-- "Error: Division by zero!" -/
  | divisionByZero
  /-- "calc: Unknown symbol" -/
  | unknownSymbol (c : BitVec 8)
  /-- the trap of `idiv`, which kills the process -/
  | divideError
  deriving DecidableEq

def idiv (x y : BitVec 32) : Except Stop (BitVec 32) :=
  if y = 0 ∨ x = INT_MIN ∧ y = -1 then .error .divideError else .ok (x.sdiv y)

/-- `num = num * 10 + (*str - '0')` over the digits -/
def number (digits : Str) : BitVec 32 :=
  digits.foldl (fun num c => num * 10 + (c.zeroExtend 32 - (chr '0').zeroExtend 32)) 0

/-- Apply the previous operator. -/
def apply (op : BitVec 8) (result num : BitVec 32) : Except Stop (BitVec 32) :=
  if op = chr '+' then .ok (result + num)
  else if op = chr '-' then .ok (result - num)
  else if op = chr '*' then .ok (result * num)
  else if op = chr '/' then if num = 0 then .error .divisionByZero else idiv result num
  else .ok result

/-- The loop of `calculate`. -/
def loop : Str → BitVec 32 → BitVec 8 → Except Stop (BitVec 32)
  | [], result, _ => .ok result
  | c :: str, result, op =>
    if isBlank c then loop str result op
    else if isDigit c then do
      let result ← apply op result (number (c :: str.takeWhile isDigit))
      loop (str.dropWhile isDigit) result op
    else if isOp c then loop str result c
    else .error (.unknownSymbol c)
termination_by str => str.length
decreasing_by
  · exact Nat.lt_succ_self _
  · exact Nat.lt_succ_of_le (List.dropWhile_suffix isDigit).length_le
  · exact Nat.lt_succ_self _

def calculate (str : Str) : Except Stop (BitVec 32) := loop str 0 (chr '+')

/-! ## Expressions -/

/-- The text is an expression with the value `result`, and `op` is the operator that comes next. The
last argument says that the text ends with a number. -/
inductive Reads : Str → BitVec 32 → BitVec 8 → Bool → Prop
  | nil : Reads [] 0 (chr '+') false
  | blank {pre : Str} {result : BitVec 32} {op c : BitVec 8} {b : Bool} :
      Reads pre result op b → isBlank c → Reads (pre ++ [c]) result op false
  | op {pre : Str} {result : BitVec 32} {op c : BitVec 8} {b : Bool} :
      Reads pre result op b → isOp c → Reads (pre ++ [c]) result c false
  | num {pre ds : Str} {result result' : BitVec 32} {op : BitVec 8} :
      Reads pre result op false → ds ≠ [] → (∀ d ∈ ds, isDigit d) →
      apply op result (number ds) = .ok result' → Reads (pre ++ ds) result' op true

/-- Somewhere an expression with the value -2³¹ is divided by a number that is -1 modulo 2³². -/
def Overflows (str : Str) : Prop :=
  ∃ pre ds post, str = pre ++ (ds ++ post) ∧ Reads pre INT_MIN (chr '/') false ∧ ds ≠ [] ∧
    (∀ d ∈ ds, isDigit d) ∧ (∀ c ∈ post.head?, isDigit c = false) ∧ number ds = -1

theorem blank_not_digit {c : BitVec 8} (h : isBlank c) : isDigit c = false := by
  unfold isBlank at h
  rcases Bool.or_eq_true _ _ ▸ h with h | h <;> rw [of_decide_eq_true h] <;> decide

theorem op_not_digit {c : BitVec 8} (h : isOp c) : isDigit c = false ∧ isBlank c = false := by
  unfold isOp at h
  simp only [Bool.or_eq_true, decide_eq_true_eq] at h
  rcases h with ((rfl | rfl) | rfl) | rfl <;> decide

theorem span_digits {ds post : Str} (hd : ∀ d ∈ ds, isDigit d)
    (hpost : ∀ c ∈ post.head?, isDigit c = false) :
    (ds ++ post).takeWhile isDigit = ds ∧ (ds ++ post).dropWhile isDigit = post := by
  rw [List.takeWhile_append_of_pos hd, List.dropWhile_append_of_pos hd]
  cases post with
  | nil => simp
  | cons c post => simp [hpost c rfl]

theorem loop_digits {ds post : Str} (hne : ds ≠ []) (hd : ∀ d ∈ ds, isDigit d)
    (hpost : ∀ c ∈ post.head?, isDigit c = false) (result : BitVec 32) (op : BitVec 8) :
    loop (ds ++ post) result op = apply op result (number ds) >>= fun r => loop post r op := by
  cases ds with
  | nil => exact absurd rfl hne
  | cons d ds =>
    obtain ⟨htake, hdrop⟩ := span_digits (fun x hx => hd x (List.mem_cons_of_mem d hx)) hpost
    have hdigit := hd d List.mem_cons_self
    have hblank : isBlank d ≠ true := fun h => by simp [blank_not_digit h] at hdigit
    rw [List.cons_append, loop, if_neg hblank, if_pos hdigit, htake, hdrop]

/-- An expression is read up to its end. -/
theorem Reads.loop {pre : Str} {result : BitVec 32} {op : BitVec 8} {b : Bool}
    (h : Reads pre result op b) {rest : Str} (hrest : b → ∀ c ∈ rest.head?, isDigit c = false) :
    calculate (pre ++ rest) = Calc.loop rest result op := by
  induction h generalizing rest with
  | nil => rfl
  | @blank _ _ _ c _ _ hc ih =>
    rw [List.append_assoc, ih fun _ d hd => by cases hd; exact blank_not_digit hc]
    rw [List.singleton_append, Calc.loop, if_pos hc]
  | @op _ _ _ c _ _ hc ih =>
    obtain ⟨hdigit, hblank⟩ := op_not_digit hc
    rw [List.append_assoc, ih fun _ d hd => by cases hd; exact hdigit]
    rw [List.singleton_append, Calc.loop, if_neg (by simp [hblank]), if_neg (by simp [hdigit]),
      if_pos hc]
  | num _ hne hd happly ih =>
    rw [List.append_assoc, ih nofun]
    rw [loop_digits hne hd (hrest rfl), happly]
    rfl

theorem apply_divideError {op : BitVec 8} {result num : BitVec 32}
    (h : apply op result num = .error .divideError) :
    op = chr '/' ∧ result = INT_MIN ∧ num = -1 := by
  unfold apply idiv at h
  split_ifs at h with _ _ _ hop h0 htrap
  all_goals cases h
  exact ⟨hop, htrap.resolve_left h0⟩

/-- A trap behind an expression that has been read. -/
theorem overflows_of_trap {str : Str} {result : BitVec 32} {op : BitVec 8} {b : Bool} {pre : Str}
    (hpre : Reads pre result op b) (hb : b → ∀ c ∈ str.head?, isDigit c = false)
    (h : loop str result op = .error .divideError) : Overflows (pre ++ str) := by
  induction hn : str.length using Nat.strong_induction_on generalizing str result op b pre with
  | _ n ih =>
    cases str with
    | nil => simp [loop] at h
    | cons c str =>
      rw [loop] at h
      have hsplit : pre ++ c :: str = (pre ++ [c]) ++ str := by simp
      split_ifs at h with hblank hdigit hop
      · rw [hsplit]
        exact ih _ (by simp [← hn]) (hpre.blank hblank) nofun h rfl
      · have hpost : ∀ d ∈ (str.dropWhile isDigit).head?, isDigit d = false := by
          intro d hd
          have hnot := List.head?_dropWhile_not isDigit str
          rwa [Option.mem_def.mp hd] at hnot
        have hds : ∀ d ∈ c :: str.takeWhile isDigit, isDigit d := by
          intro d hd
          rcases List.mem_cons.mp hd with rfl | hd
          · exact hdigit
          · exact List.mem_takeWhile_imp hd
        have hstr : c :: str = (c :: str.takeWhile isDigit) ++ str.dropWhile isDigit := by
          rw [List.cons_append, List.takeWhile_append_dropWhile]
        cases b with
        | true => simp [hb rfl c rfl] at hdigit
        | false =>
          cases happly : apply op result (number (c :: str.takeWhile isDigit)) with
          | error e =>
            rw [happly] at h
            cases h
            obtain ⟨rfl, rfl, hnum⟩ := apply_divideError happly
            exact ⟨pre, _, _, by rw [hstr], hpre, by simp, hds, hpost, hnum⟩
          | ok r =>
            rw [happly] at h
            rw [hstr, ← List.append_assoc]
            refine ih _ ?_ (hpre.num (by simp) hds happly) (fun _ => hpost) h rfl
            have := (List.dropWhile_suffix isDigit (l := str)).length_le
            rw [← hn, List.length_cons]
            omega
      · rw [hsplit]
        exact ih _ (by simp [← hn]) (hpre.op hop) nofun h rfl
      · cases h

/-- For every string: `calculate` does not trap, exactly if nowhere an expression with the value -2³¹
is divided by a number that is -1 modulo 2³². -/
theorem calculate_safe_iff (str : Str) : calculate str ≠ .error .divideError ↔ ¬Overflows str := by
  refine not_congr ⟨fun h => overflows_of_trap .nil nofun h, ?_⟩
  rintro ⟨pre, ds, post, rfl, hpre, hne, hd, hpost, hnum⟩
  rw [hpre.loop nofun, loop_digits hne hd hpost, hnum]
  rfl

/-- `calc 2147483648/4294967295` -/
theorem overflow_traps :
    calculate ("2147483648/4294967295".toList.map chr) = .error .divideError := by
  decide +kernel

end DuckoUnix.Calc
