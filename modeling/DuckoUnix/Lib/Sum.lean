import Mathlib.Algebra.BigOperators.Group.Finset.Basic

/-!
# Families with one changed member
-/

namespace Lib

open Finset Function

variable {ι β γ M : Type*} [Fintype ι] [DecidableEq ι] [AddCommMonoid M]

/-- Changing one member of a family moves its term from one side to the other. -/
theorem sum_update_add_index (f : ι → β → M) (g : ι → β) (i : ι) (x : β) :
    ∑ j, f j (update g i x j) + f i (g i) = ∑ j, f j (g j) + f i x := by
  have h : ∀ j ∈ univ.erase i, f j (update g i x j) = f j (g j) := fun j hj => by
    rw [update_of_ne (ne_of_mem_erase hj)]
  rw [← add_sum_erase univ _ (mem_univ i), ← add_sum_erase univ (fun j => f j (g j)) (mem_univ i),
    update_self, sum_congr rfl h]
  ac_rfl

theorem sum_update_add (f : β → M) (g : ι → β) (i : ι) (x : β) :
    ∑ j, f (update g i x j) + f (g i) = ∑ j, f (g j) + f x :=
  sum_update_add_index (fun _ => f) g i x

/-- Replacing a member by one of the same weight does not change the sum. -/
theorem sum_update_eq {f : β → M} {g : ι → β} {i : ι} {x : β} (h : f x = f (g i)) :
    ∑ j, f (update g i x j) = ∑ j, f (g j) := by
  refine sum_congr rfl fun j _ => ?_
  by_cases e : j = i
  · rw [e, update_self, h]
  · rw [update_of_ne e]

omit [Fintype ι] in
/-- What belongs to one member at most still does when a member comes to have nothing that belongs
to another. -/
theorem unique_update {R : γ → β → Prop} {g : ι → β} {i : ι} {x : β}
    (h : ∀ a b c, R c (g a) → R c (g b) → a = b) (hx : ∀ j c, j ≠ i → R c x → ¬ R c (g j)) :
    ∀ a b c, R c (update g i x a) → R c (update g i x b) → a = b := by
  intro a b c ha hb
  by_cases ea : a = i
  · by_cases eb : b = i
    · rw [ea, eb]
    · rw [ea, update_self] at ha
      rw [update_of_ne eb] at hb
      exact absurd hb (hx b c eb ha)
  · rw [update_of_ne ea] at ha
    by_cases eb : b = i
    · rw [eb, update_self] at hb
      exact absurd ha (hx a c ea hb)
    · rw [update_of_ne eb] at hb
      exact h a b c ha hb

end Lib
