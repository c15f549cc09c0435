import Mathlib.Data.List.Basic
import Mathlib.Logic.Function.Basic

/-!
# Singly linked lists

Nodes with a `next` pointer. `Chain next p l` says that the pointers lead from `p` through the nodes
`l` to null. `tail` follows the pointers to the last node; a store into it appends.
-/

namespace Lib

open Function

variable {α : Type*} {next next' : α → Option α} {p : Option α} {x y : α} {l : List α}

/-- From `p` through `l` to null. -/
def Chain (next : α → Option α) : Option α → List α → Prop
  | p, [] => p = none
  | p, x :: l => p = some x ∧ Chain next (next x) l

/-- A chain depends on the pointers of its nodes alone. -/
theorem Chain.congr (h : Chain next p l) (hn : ∀ x ∈ l, next' x = next x) : Chain next' p l := by
  induction l generalizing p with
  | nil => exact h
  | cons x l ih =>
    refine ⟨h.1, ?_⟩
    rw [hn x List.mem_cons_self]
    exact ih h.2 fun y hy => hn y (List.mem_cons_of_mem _ hy)

theorem Chain.unique {r : List α} (h : Chain next p l) (h' : Chain next p r) : l = r := by
  induction l generalizing p r with
  | nil =>
    cases r with
    | nil => rfl
    | cons y r => exact nomatch h.symm.trans h'.1
  | cons x l ih =>
    cases r with
    | nil => exact nomatch h.1.symm.trans h'
    | cons y r =>
      obtain rfl := Option.some.inj (h.1.symm.trans h'.1)
      rw [ih h.2 h'.2]

/-- The last node from `x` on, at most `n` pointers away. -/
def tail (next : α → Option α) : ℕ → α → α
  | 0, x => x
  | n + 1, x =>
    match next x with
    | none => x
    | some y => tail next n y

theorem Chain.tail_mem {n : ℕ} (h : Chain next (some x) l) : tail next n x ∈ l := by
  induction n generalizing x l with
  | zero =>
    cases l with
    | nil => exact nomatch h
    | cons y l =>
      obtain rfl := Option.some.inj h.1
      exact List.mem_cons_self
  | succ n ih =>
    cases l with
    | nil => exact nomatch h
    | cons y l =>
      obtain rfl := Option.some.inj h.1
      cases hx : next x with
      | none =>
        rw [tail, hx]
        exact List.mem_cons_self
      | some y =>
        have h' := h.2
        rw [hx] at h'
        rw [tail, hx]
        exact List.mem_cons_of_mem _ (ih h')

variable [DecidableEq α]

/-- A store of a new node into the last node appends it. -/
theorem Chain.append {n : ℕ} (h : Chain next (some x) l) (hl : l.Nodup) (hn : l.length ≤ n)
    (hy : next y = none) (hyl : y ∉ l) :
    Chain (update next (tail next n x) (some y)) (some x) (l ++ [y]) := by
  induction l generalizing x n with
  | nil => exact nomatch h
  | cons z l ih =>
    obtain ⟨hz, h⟩ := h
    obtain rfl := Option.some.inj hz
    obtain ⟨m, rfl⟩ : ∃ m, n = m + 1 := Nat.exists_eq_succ_of_ne_zero (by
      rw [List.length_cons] at hn
      omega)
    rw [List.length_cons] at hn
    rw [List.mem_cons, not_or] at hyl
    rw [List.nodup_cons] at hl
    refine ⟨rfl, ?_⟩
    cases l with
    | nil =>
      have hx : next x = none := h
      have ht : tail next (m + 1) x = x := by rw [tail, hx]
      rw [ht, update_self]
      refine ⟨rfl, ?_⟩
      rw [update_of_ne hyl.1]
      exact hy
    | cons w l =>
      have hx : next x = some w := h.1
      have ht : tail next (m + 1) x = tail next m w := by rw [tail, hx]
      rw [hx] at h
      have ih := ih (n := m) h hl.2 (by omega) hyl.2
      rw [ht]
      -- the last node is not the first one, which keeps its pointer
      have hne : x ≠ tail next m w := by
        intro e
        have hmem := h.tail_mem (n := m)
        rw [← e] at hmem
        exact hl.1 hmem
      rw [update_of_ne hne, hx]
      exact ih

end Lib
