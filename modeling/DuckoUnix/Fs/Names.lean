import Mathlib.Data.List.DropRight
import Mathlib.Data.List.TakeWhile
import DuckoUnix.Fs.Format

/-!
# Names and paths

`strncmp` and `strncpy` of `string.c` as directories use them, and `skipelem` of `fs.c`. A string is
the list of its bytes without the NUL; behind the end of a list there are NULs, so a name of `DIRSIZ`
bytes, which has no NUL in memory, is a list like any other.
-/

namespace DuckoUnix.Fs

variable {s t p q path name : List (BitVec 8)} {n : ℕ} {c : BitVec 8}

/-! ## `string.c` -/

def strncmp : List (BitVec 8) → List (BitVec 8) → ℕ → ℤ
  | _, _, 0 => 0
  | p, q, n + 1 =>
    let a := p.headD 0
    let b := q.headD 0
    if a ≠ 0 ∧ a = b then strncmp p.tail q.tail n else a.toNat - b.toNat

/-- `strncpy`: the `n` bytes that it stores. -/
def strncpy : List (BitVec 8) → ℕ → List (BitVec 8)
  | _, 0 => []
  | t, n + 1 =>
    let c := t.headD 0
    if c ≠ 0 then c :: strncpy t.tail n else 0 :: List.replicate n 0

/-- What these functions see of a string: at most `n` bytes, up to the first NUL. -/
def cut (n : ℕ) (s : List (BitVec 8)) : List (BitVec 8) := (s.take n).takeWhile (· ≠ 0)

theorem cut_succ :
    cut (n + 1) s = if s.headD 0 ≠ 0 then s.headD 0 :: cut n s.tail else [] := by
  unfold cut
  cases s with
  | nil => rfl
  | cons c s =>
    rw [List.take_succ_cons, List.takeWhile_cons]
    by_cases h : c = 0
    · rw [h]
      rfl
    · rw [if_pos (by simpa using h), if_pos (by simpa using h)]
      rfl

theorem strncmp_eq_zero : strncmp p q n = 0 ↔ cut n p = cut n q := by
  induction n generalizing p q with
  | zero => exact iff_of_true rfl rfl
  | succ n ih =>
    rw [strncmp, cut_succ, cut_succ]
    by_cases hp : p.headD 0 = 0
    · rw [if_neg fun h => h.1 hp, if_neg (not_not.mpr hp), hp]
      by_cases hq : q.headD 0 = 0
      · rw [if_neg (not_not.mpr hq), hq]
        exact iff_of_true rfl rfl
      · rw [if_pos hq]
        refine iff_of_false (fun h => hq (BitVec.eq_of_toNat_eq ?_)) (fun h => nomatch h)
        have h0 : (0 : BitVec 8).toNat = 0 := rfl
        omega
    · rw [if_pos hp]
      by_cases hq : p.headD 0 = q.headD 0
      · rw [if_pos ⟨hp, hq⟩, ih, if_pos (by rw [← hq]; exact hp), hq, List.cons_inj_right]
      · rw [if_neg fun h => hq h.2]
        refine iff_of_false (fun h => hq (BitVec.eq_of_toNat_eq (by omega))) fun h => ?_
        split_ifs at h
        exact hq (List.cons.inj h).1

theorem length_strncpy : (strncpy t n).length = n := by
  induction n generalizing t with
  | zero => rfl
  | succ n ih =>
    rw [strncpy]
    split_ifs
    · rw [List.length_cons, ih]
    · rw [List.length_cons, List.length_replicate]

theorem cut_strncpy : cut n (strncpy t n) = cut n t := by
  induction n generalizing t with
  | zero => rfl
  | succ n ih =>
    rw [strncpy, cut_succ, cut_succ]
    by_cases h : t.headD 0 = 0
    · rw [if_neg (not_not.mpr h), if_neg (not_not.mpr h)]
      exact if_neg (not_not.mpr rfl)
    · rw [if_pos h, if_pos h, List.headD_cons, List.tail_cons, if_pos h, ih]

def namecmp (s t : List (BitVec 8)) : ℤ := strncmp s t DIRSIZ

/-- What a directory makes of a name. -/
def nameOf (s : List (BitVec 8)) : List (BitVec 8) := cut DIRSIZ s

theorem namecmp_eq_zero : namecmp s t = 0 ↔ nameOf s = nameOf t := strncmp_eq_zero

/-! ## Paths -/

def slash : BitVec 8 := 47

/-- Copy the next path element: the name, at most `DIRSIZ` bytes of it, and the path behind it without
leading slashes; none if there is no name. -/
def skipelem (path : List (BitVec 8)) : Option (List (BitVec 8) × List (BitVec 8)) :=
  let path := path.dropWhile (· = slash)
  if path = [] then none
  else some ((path.takeWhile (· ≠ slash)).take DIRSIZ,
    (path.dropWhile (· ≠ slash)).dropWhile (· = slash))

theorem skipelem_none (h : path.dropWhile (· = slash) = []) : skipelem path = none := if_pos h

theorem skipelem_some {p : List (BitVec 8)} (h : path.dropWhile (· = slash) = c :: p) :
    c ≠ slash ∧ skipelem path = some ((c :: p.takeWhile (· ≠ slash)).take DIRSIZ,
      (p.dropWhile (· ≠ slash)).dropWhile (· = slash)) := by
  have hc : c ≠ slash := by
    have := List.head_dropWhile_not (· = slash) (l := path) (by rw [h]; exact List.cons_ne_nil _ _)
    simpa [h] using this
  refine ⟨hc, ?_⟩
  unfold skipelem
  dsimp only
  rw [h, if_neg (List.cons_ne_nil _ _), List.takeWhile_cons_of_pos (by simpa using hc),
    List.dropWhile_cons_of_pos (by simpa using hc)]

theorem skipelem_cases (path : List (BitVec 8)) :
    (path.dropWhile (· = slash) = [] ∧ skipelem path = none) ∨
    ∃ c p, path.dropWhile (· = slash) = c :: p ∧ c ≠ slash ∧
      skipelem path = some ((c :: p.takeWhile (· ≠ slash)).take DIRSIZ,
        (p.dropWhile (· ≠ slash)).dropWhile (· = slash)) := by
  cases h : path.dropWhile (· = slash) with
  | nil => exact Or.inl ⟨rfl, skipelem_none h⟩
  | cons c p => exact Or.inr ⟨c, p, rfl, skipelem_some h⟩

theorem length_dropWhile_le (f : BitVec 8 → Bool) (s : List (BitVec 8)) :
    (s.dropWhile f).length ≤ s.length := (List.dropWhile_sublist f).length_le

theorem skipelem_lt {rest : List (BitVec 8)} (h : skipelem path = some (name, rest)) :
    rest.length < path.length := by
  rcases skipelem_cases path with ⟨-, hn⟩ | ⟨c, p, hp, -, hs⟩
  · rw [hn] at h
    cases h
  · rw [hs] at h
    obtain ⟨-, rfl⟩ := Prod.mk.inj (Option.some.inj h)
    have h₁ := length_dropWhile_le (· = slash) path
    have h₂ := length_dropWhile_le (· = slash) (p.dropWhile (· ≠ slash))
    have h₃ := length_dropWhile_le (· ≠ slash) p
    rw [hp, List.length_cons] at h₁
    omega

/-- The names that `skipelem` yields one after the other; the first argument bounds their number. -/
def elements : ℕ → List (BitVec 8) → List (List (BitVec 8))
  | 0, _ => []
  | k + 1, path =>
    match skipelem path with
    | none => []
    | some (name, path) => name :: elements k path

/-- The components of a path: what is between slashes and not empty, cut to `DIRSIZ` bytes. -/
def components (path : List (BitVec 8)) : List (List (BitVec 8)) :=
  ((path.splitOn slash).filter (· ≠ [])).map (List.take DIRSIZ)

theorem components_slash : components (slash :: path) = components path := by
  unfold components
  rw [List.splitOn_eq_splitOnP, ← List.nil_append (slash :: path),
    List.splitOnP_append_cons_of_forall_mem (fun _ h => absurd h List.not_mem_nil) slash (by decide)]
  rfl

theorem components_dropWhile : components (path.dropWhile (· = slash)) = components path := by
  induction path with
  | nil => rfl
  | cons c path ih =>
    by_cases h : c = slash
    · rw [List.dropWhile_cons_of_pos (by simpa using h), ih, h, components_slash]
    · rw [List.dropWhile_cons_of_neg (by simpa using h)]

theorem components_word {w rest : List (BitVec 8)} (hw : ∀ c ∈ w, c ≠ slash) (hne : w ≠ [])
    (hrest : rest = [] ∨ ∃ r, rest = slash :: r) :
    components (w ++ rest) = w.take DIRSIZ :: components rest := by
  have hw' : ∀ c ∈ w, (c == slash) = false := fun c hc => by simpa using hw c hc
  have hkeep : ∀ l, List.filter (· ≠ []) (w :: l) = w :: l.filter (· ≠ []) := fun l =>
    List.filter_cons_of_pos (decide_eq_true hne)
  rcases hrest with rfl | ⟨r, rfl⟩
  · unfold components
    rw [List.append_nil, List.splitOn_eq_splitOnP, List.splitOnP_eq_singleton hw',
      hkeep]
    rfl
  · rw [components_slash]
    unfold components
    rw [List.splitOn_eq_splitOnP, List.splitOnP_append_cons_of_forall_mem hw' slash (by decide),
      hkeep]
    rfl

/-- `skipelem` takes the first component off. -/
theorem components_skipelem : components path =
    match skipelem path with
    | none => []
    | some (name, rest) => name :: components rest := by
  rcases skipelem_cases path with ⟨hp, hs⟩ | ⟨c, p, hp, hc, hs⟩
  · rw [hs, ← components_dropWhile, hp]
    rfl
  · rw [hs, ← components_dropWhile, hp]
    dsimp only
    rw [components_dropWhile, ← components_word ?_ (List.cons_ne_nil _ _) ?_, List.cons_append,
      List.takeWhile_append_dropWhile]
    · intro x hx
      rcases List.mem_cons.mp hx with rfl | hx
      · exact hc
      · simpa using List.mem_takeWhile_imp hx
    · cases hr : p.dropWhile (· ≠ slash) with
      | nil => exact Or.inl rfl
      | cons x r =>
        have hx := List.head?_dropWhile_not (· ≠ slash) p
        rw [hr] at hx
        refine Or.inr ⟨r, ?_⟩
        congr 1
        simpa using hx

theorem components_of_none (h : skipelem path = none) : components path = [] := by
  rw [components_skipelem, h]

theorem components_of_some {rest : List (BitVec 8)} (h : skipelem path = some (name, rest)) :
    components path = name :: components rest ∧ (components rest = [] ↔ rest = []) := by
  refine ⟨by rw [components_skipelem, h], fun hnil => ?_, fun e => by rw [e]; rfl⟩
  rcases skipelem_cases path with ⟨-, hn⟩ | ⟨c, p, -, -, hs⟩
  · rw [hn] at h
    cases h
  · rw [hs] at h
    obtain ⟨-, rfl⟩ := Prod.mk.inj (Option.some.inj h)
    have hidem := List.dropWhile_idempotent (· = slash) (p.dropWhile (· ≠ slash))
    rw [components_skipelem] at hnil
    rcases skipelem_cases ((p.dropWhile (· ≠ slash)).dropWhile (· = slash)) with
      ⟨hp, -⟩ | ⟨c', p', -, -, hs'⟩
    · exact hidem.symm.trans hp
    · rw [hs'] at hnil
      cases hnil

/-- The names are the components of the path, and then `skipelem` stops. -/
theorem elements_eq_components (h : path.length < n) : elements n path = components path := by
  induction n generalizing path with
  | zero => exact absurd h (Nat.not_lt_zero _)
  | succ n ih =>
    rw [components_skipelem, elements]
    cases hs : skipelem path with
    | none => rfl
    | some x =>
      have hlt := skipelem_lt hs
      dsimp only
      rw [ih (by omega)]

end DuckoUnix.Fs
