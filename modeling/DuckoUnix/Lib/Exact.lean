import Mathlib.Data.Set.Defs
import Mathlib.Data.Nat.Notation

/-!
# References to cells, and marks on the cells in use

Slots `κ` refer to cells, which are numbers; 0 is no cell. `Exact ref used area` says that the cells of
an area that are marked as used are those that a slot refers to, and that no two slots refer to the
same cell. A slot may take up a cell that was not in use, and slots may give up their cells together.
-/

namespace Lib

variable {κ : Type*} {ref ref' : κ → ℕ} {used used' : ℕ → Bool} {area : ℕ → Prop}

/-- Every cell in use belongs to one slot. -/
structure Exact (ref : κ → ℕ) (used : ℕ → Bool) (area : ℕ → Prop) : Prop where
  marked : ∀ {k}, ref k ≠ 0 → area (ref k) ∧ used (ref k) = true
  inj : ∀ {k k'}, ref k ≠ 0 → ref k' = ref k → k' = k
  owned : ∀ {b}, b ≠ 0 → area b → used b = true → ∃ k, ref k = b

namespace Exact

theorem congr (h : Exact ref used area) (href : ∀ k, ref' k = ref k)
    (hused : ∀ b, area b → used' b = used b) : Exact ref' used' area where
  marked {k} hk := by
    rw [href] at hk ⊢
    obtain ⟨ha, hu⟩ := h.marked hk
    exact ⟨ha, by rw [hused _ ha, hu]⟩
  inj {k k'} hk hk' := by
    rw [href] at hk hk'
    rw [href] at hk'
    exact h.inj hk hk'
  owned {b} hb ha hu := by
    rw [hused b ha] at hu
    obtain ⟨k, hk⟩ := h.owned hb ha hu
    exact ⟨k, by rw [href, hk]⟩

/-- No slot refers to a cell that is not in use. -/
theorem ne_of_free (h : Exact ref used area) {b : ℕ} (hb : used b = false) {k : κ}
    (hk : ref k ≠ 0) : ref k ≠ b := by
  intro e
  have := (h.marked hk).2
  rw [e, hb] at this
  cases this

/-- An empty slot takes up a cell that was not in use. -/
theorem attach (h : Exact ref used area) {k : κ} {b : ℕ} (hk : ref k = 0) (hfree : used b = false)
    (ha : area b) (hb : b ≠ 0) (hself : ref' k = b) (hother : ∀ k', k' ≠ k → ref' k' = ref k')
    (hused : ∀ c, area c → used' c = (decide (c = b) || used c)) : Exact ref' used' area where
  marked {k'} hk' := by
    by_cases e : k' = k
    · rw [e, hself]
      exact ⟨ha, by rw [hused b ha, decide_eq_true rfl, Bool.true_or]⟩
    · rw [hother k' e] at hk' ⊢
      obtain ⟨ha', hu⟩ := h.marked hk'
      exact ⟨ha', by rw [hused _ ha', hu, Bool.or_true]⟩
  inj {k₁ k₂} h₁ h₂ := by
    by_cases e₁ : k₁ = k <;> by_cases e₂ : k₂ = k
    · rw [e₁, e₂]
    · rw [e₁, hself, hother k₂ e₂] at h₂
      exact absurd h₂ (h.ne_of_free hfree (by rw [h₂]; exact hb))
    · rw [e₂, hself, hother k₁ e₁] at h₂
      rw [hother k₁ e₁] at h₁
      exact absurd h₂.symm (h.ne_of_free hfree h₁)
    · rw [hother k₁ e₁] at h₁ h₂
      rw [hother k₂ e₂] at h₂
      exact h.inj h₁ h₂
  owned {c} hc ha hu := by
    by_cases e : c = b
    · exact ⟨k, by rw [hself, e]⟩
    · rw [hused c ha, decide_eq_false e, Bool.false_or] at hu
      obtain ⟨k', hk'⟩ := h.owned hc ha hu
      have e' : k' ≠ k := fun e' => hc (by rw [← hk', e', hk])
      exact ⟨k', by rw [hother k' e', hk']⟩

/-- Slots give up their cells. -/
theorem release (h : Exact ref used area) {S : Set κ} (hself : ∀ k ∈ S, ref' k = 0)
    (hother : ∀ k ∉ S, ref' k = ref k)
    (hused : ∀ c, area c → (used' c = true ↔ used c = true ∧ ∀ k ∈ S, ref k ≠ c)) :
    Exact ref' used' area where
  marked {k} hk := by
    have hS : k ∉ S := fun hS => hk (hself k hS)
    rw [hother k hS] at hk ⊢
    obtain ⟨ha, hu⟩ := h.marked hk
    exact ⟨ha, (hused _ ha).mpr ⟨hu, fun k' hk' e => hS (h.inj hk e ▸ hk')⟩⟩
  inj {k k'} hk e := by
    have hS : k ∉ S := fun hS => hk (hself k hS)
    have hS' : k' ∉ S := fun hS' => hk (by rw [← e, hself k' hS'])
    rw [hother k hS] at hk e
    rw [hother k' hS'] at e
    exact h.inj hk e
  owned {c} hc ha hu := by
    obtain ⟨hu, hno⟩ := (hused c ha).mp hu
    obtain ⟨k, hk⟩ := h.owned hc ha hu
    have hS : k ∉ S := fun hS => hno k hS hk
    exact ⟨k, by rw [hother k hS, hk]⟩

end Exact

end Lib
