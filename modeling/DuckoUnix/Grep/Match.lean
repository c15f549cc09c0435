import Mathlib.Data.BitVec

/-!
# The matcher of grep

`match`, `matchhere` and `matchstar` of `grep.c`, against the meaning of the patterns. A `char *` is
the text from it up to its NUL. The two functions call each other: `matchhere` goes on with a shorter
pattern, and the loop of `matchstar` with a shorter text.
-/

namespace DuckoUnix.Grep

abbrev Str := List (BitVec 8)

def chr (c : Char) : BitVec 8 := BitVec.ofNat 8 c.toNat

/-! ## The code -/

/-- The second character of the pattern is a star. -/
def starred (re : Str) : Bool := re.head? = some (chr '*')

theorem tail_length {re : Str} (h : starred re = true) : re.tail.length + 1 = re.length := by
  cases re with
  | nil => cases h
  | cons d re => rfl

mutual

/-- `matchhere`; a pattern that is not empty is given by `re[0]` and `re+1`. -/
def matchhere : Str → Str → Bool
  | [], _ => true
  | c :: re, text =>
    if h : starred re then
      have := tail_length h
      matchstar c re.tail text
    else if c = chr '$' ∧ re = [] then text.isEmpty
    else match text with
      | [] => false
      | t :: text => (c = chr '.' || c = t) && matchhere re text
termination_by re text => (re.length, text.length)

def matchstar (c : BitVec 8) (re : Str) (text : Str) : Bool :=
  matchhere re text || match text with
    | [] => false
    | t :: text => (t = c || c = chr '.') && matchstar c re text
termination_by (re.length + 1, text.length)

end

/-- The loop of `match`. -/
def search (re : Str) : Str → Bool
  | [] => matchhere re []
  | t :: text => matchhere re (t :: text) || search re text

def matchRe (re text : Str) : Bool :=
  if re.head? = some (chr '^') then matchhere re.tail text else search re text

/-! ## The patterns -/

/-- What a pattern is made of. -/
inductive Item
  /-- `x*` -/
  | star (x : BitVec 8)
  /-- a final `$` -/
  | eol
  /-- `.` -/
  | any
  /-- every other character -/
  | char (x : BitVec 8)
  deriving DecidableEq

/-- An item for one character. -/
def one (c : BitVec 8) : Item := if c = chr '.' then .any else .char c

/-- A pattern, read from left to right. -/
def items : Str → List Item
  | [] => []
  | c :: re =>
    if h : starred re then .star c :: items re.tail
    else if c = chr '$' ∧ re = [] then [.eol]
    else one c :: items re
termination_by re => re.length
decreasing_by
  · have := tail_length h
    rw [List.length_cons]
    omega
  · exact Nat.lt_succ_self _

/-- The item matches `s`, with `after` up to the end of the text. -/
def Item.Matches : Item → Str → Str → Prop
  | star x, s, _ => ∀ y ∈ s, y = x ∨ x = chr '.'
  | eol, s, after => s = [] ∧ after = []
  | any, s, _ => ∃ y, s = [y]
  | char x, s, _ => s = [x]

/-- The items match the parts of `s` one after the other, with `after` up to the end of the text. -/
def Matches : List Item → Str → Str → Prop
  | [], s, _ => s = []
  | i :: is, s, after => ∃ u v, s = u ++ v ∧ i.Matches u (v ++ after) ∧ Matches is v after

/-- `is` match at the beginning of the text. -/
def Here (is : List Item) (text : Str) : Prop := ∃ s after, text = s ++ after ∧ Matches is s after

/-! ## The matcher at one place -/

section Here

variable {is : List Item} {text : Str} {x t : BitVec 8}

theorem here_nil : Here [] text := ⟨[], text, rfl, rfl⟩

theorem here_cons {i : Item} :
    Here (i :: is) text ↔ ∃ u rest, text = u ++ rest ∧ i.Matches u rest ∧ Here is rest := by
  constructor
  · rintro ⟨s, after, rfl, u, v, rfl, hu, hv⟩
    exact ⟨u, v ++ after, List.append_assoc u v after, hu, v, after, rfl, hv⟩
  · rintro ⟨u, rest, rfl, hu, v, after, rfl, hv⟩
    exact ⟨u ++ v, after, (List.append_assoc u v after).symm, u, v, rfl, hu, hv⟩

theorem here_eol : Here [.eol] text ↔ text = [] := by
  rw [here_cons]
  constructor
  · rintro ⟨u, rest, rfl, ⟨rfl, rfl⟩, -⟩
    rfl
  · rintro rfl
    exact ⟨[], [], rfl, ⟨rfl, rfl⟩, here_nil⟩

theorem one_matches {c : BitVec 8} {s after : Str} :
    (one c).Matches s after ↔ ∃ t, s = [t] ∧ (c = chr '.' ∨ c = t) := by
  unfold one
  split
  · rename_i h
    exact ⟨fun ⟨t, hs⟩ => ⟨t, hs, .inl h⟩, fun ⟨t, hs, _⟩ => ⟨t, hs⟩⟩
  · rename_i h
    constructor
    · intro hs
      exact ⟨c, hs, .inr rfl⟩
    · rintro ⟨t, rfl, hc⟩
      rw [hc.resolve_left h]
      rfl

theorem not_here_one_nil {c : BitVec 8} : ¬ Here (one c :: is) [] := by
  rw [here_cons]
  rintro ⟨u, rest, hnil, hu, -⟩
  obtain ⟨t, rfl, -⟩ := one_matches.mp hu
  cases hnil

theorem here_one_cons {c : BitVec 8} :
    Here (one c :: is) (t :: text) ↔ (c = chr '.' ∨ c = t) ∧ Here is text := by
  rw [here_cons]
  constructor
  · rintro ⟨u, rest, heq, hu, hrest⟩
    obtain ⟨t', rfl, hc⟩ := one_matches.mp hu
    cases heq
    exact ⟨hc, hrest⟩
  · rintro ⟨hc, hrest⟩
    exact ⟨[t], text, rfl, one_matches.mpr ⟨t, rfl, hc⟩, hrest⟩

theorem here_star_nil : Here (.star x :: is) [] ↔ Here is [] := by
  rw [here_cons]
  constructor
  · rintro ⟨u, rest, hnil, -, hrest⟩
    obtain ⟨rfl, rfl⟩ := List.append_eq_nil_iff.mp hnil.symm
    exact hrest
  · intro h
    exact ⟨[], [], rfl, nofun, h⟩

theorem here_star_cons :
    Here (.star x :: is) (t :: text) ↔
      Here is (t :: text) ∨ ((t = x ∨ x = chr '.') ∧ Here (.star x :: is) text) := by
  simp only [here_cons (i := .star x)]
  constructor
  · rintro ⟨u, rest, heq, hu, hrest⟩
    cases u with
    | nil =>
      left
      rwa [heq]
    | cons y u =>
      right
      have hall : ∀ z ∈ y :: u, z = x ∨ x = chr '.' := hu
      cases heq
      rw [List.forall_mem_cons] at hall
      exact ⟨hall.1, u, rest, rfl, hall.2, hrest⟩
  · rintro (h | ⟨ht, u, rest, rfl, hu, hrest⟩)
    · exact ⟨[], t :: text, rfl, nofun, h⟩
    · refine ⟨t :: u, rest, rfl, ?_, hrest⟩
      have hall : ∀ z ∈ t :: u, z = x ∨ x = chr '.' := List.forall_mem_cons.mpr ⟨ht, hu⟩
      exact hall

/-- The loop of `matchstar`, if `matchhere` is right about the pattern behind the star. -/
theorem matchstar_iff {re : Str} (hre : ∀ text, matchhere re text = true ↔ Here (items re) text)
    (text : Str) : matchstar x re text = true ↔ Here (.star x :: items re) text := by
  induction text with
  | nil =>
    rw [matchstar, here_star_nil, ← hre]
    simp
  | cons t text ih =>
    rw [matchstar, here_star_cons, ← hre, ← ih]
    simp

section Cons

variable {c : BitVec 8} {re : Str}

theorem matchhere_star (h : starred re = true) (text : Str) :
    matchhere (c :: re) text = matchstar c re.tail text := by
  rw [matchhere.eq_def]
  exact dif_pos h

theorem matchhere_eol (h : ¬ starred re = true) (hend : c = chr '$' ∧ re = []) (text : Str) :
    matchhere (c :: re) text = text.isEmpty := by
  rw [matchhere.eq_def]
  exact (dif_neg h).trans (if_pos hend)

theorem matchhere_one (h : ¬ starred re = true) (hend : ¬ (c = chr '$' ∧ re = [])) (text : Str) :
    matchhere (c :: re) text = match text with
      | [] => false
      | t :: text => (c = chr '.' || c = t) && matchhere re text := by
  rw [matchhere.eq_def]
  exact (dif_neg h).trans (if_neg hend)

end Cons

theorem matchhere_iff (re text : Str) : matchhere re text = true ↔ Here (items re) text := by
  -- the pattern gets shorter by a character, or by two at a star
  induction re using items.induct generalizing text with
  | case1 =>
    rw [matchhere, items]
    exact iff_of_true rfl here_nil
  | case2 c re h ih =>
    rw [matchhere_star h, items, dif_pos h]
    exact matchstar_iff ih text
  | case3 c re h hend =>
    rw [matchhere_eol h hend, items, dif_neg h, if_pos hend, here_eol]
    exact List.isEmpty_iff
  | case4 c re h hend ih =>
    rw [matchhere_one h hend, items, dif_neg h, if_neg hend]
    cases text with
    | nil => exact iff_of_false Bool.false_ne_true not_here_one_nil
    | cons t text =>
      rw [here_one_cons, ← ih]
      simp

end Here

/-! ## The matcher -/

/-- The pattern without a `^` at its beginning. -/
def body (re : Str) : Str := if re.head? = some (chr '^') then re.tail else re

theorem search_iff (re text : Str) :
    search re text = true ↔ ∃ before rest, text = before ++ rest ∧ Here (items re) rest := by
  induction text with
  | nil =>
    rw [search, matchhere_iff]
    constructor
    · intro h
      exact ⟨[], [], rfl, h⟩
    · rintro ⟨before, rest, hnil, h⟩
      obtain ⟨rfl, rfl⟩ := List.append_eq_nil_iff.mp hnil.symm
      exact h
  | cons t text ih =>
    rw [search, Bool.or_eq_true, ih, matchhere_iff]
    constructor
    · rintro (h | ⟨before, rest, rfl, h⟩)
      · exact ⟨[], t :: text, rfl, h⟩
      · exact ⟨t :: before, rest, rfl, h⟩
    · rintro ⟨before, rest, heq, h⟩
      cases before with
      | nil =>
        left
        rwa [heq]
      | cons y before =>
        right
        cases heq
        exact ⟨before, rest, rfl, h⟩

/-- For every pattern and every text: `match` returns 1 exactly if the pattern, without a `^` at its
beginning, matches some part of the text, which is at the beginning of the text if there was a `^`. -/
theorem match_iff (re text : Str) :
    matchRe re text = true ↔ ∃ before s after, text = before ++ s ++ after ∧
      (re.head? = some (chr '^') → before = []) ∧ Matches (items (body re)) s after := by
  unfold matchRe body
  split
  · rename_i h
    rw [matchhere_iff]
    constructor
    · rintro ⟨s, after, rfl, hs⟩
      exact ⟨[], s, after, rfl, fun _ => rfl, hs⟩
    · rintro ⟨before, s, after, rfl, hbefore, hs⟩
      rw [hbefore h]
      exact ⟨s, after, rfl, hs⟩
  · rename_i h
    rw [search_iff]
    constructor
    · rintro ⟨before, rest, rfl, s, after, rfl, hs⟩
      exact ⟨before, s, after, (List.append_assoc _ _ _).symm, fun h' => absurd h' h, hs⟩
    · rintro ⟨before, s, after, rfl, -, hs⟩
      exact ⟨before, s ++ after, List.append_assoc _ _ _, s, after, rfl, hs⟩

end DuckoUnix.Grep
