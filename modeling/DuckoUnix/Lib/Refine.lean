import Mathlib.Data.Nat.Notation
import DuckoUnix.Lib.Thread
import DuckoUnix.Lib.Wp

/-!
# Programs that refine others

A program over states `σ` refines one over states `τ` if it returns the same values and its states
stay related, with two exceptions. Where the second program stops with a fault that stands for
undefined behaviour, nothing is said of the first. And the first may stop because it ran out of a
resource: `room` is how much is left of it, and `spent` is what the second program has accounted for.

Programs built in the same way from programs that refine each other refine each other, so for threads
it is enough to look at the operations.
-/

namespace Lib

/-- How the states and the faults of two kinds of programs go together. -/
structure Refinement (σ τ ε φ : Type) where
  Rel : σ → τ → Prop
  room : σ → ℕ
  spent : τ → ℕ
  /-- the faults of running out -/
  Short : ε → Prop
  Fault : φ → ε → Prop
  Undef : φ → Prop

variable {σ τ ε φ α β : Type} {R : Refinement σ τ ε φ} {s : σ} {t t' : τ}

/-- `x` run in `s` does what `y` does in `t`. -/
def Refines (R : Refinement σ τ ε φ) (x : Prog σ ε α) (y : Prog τ φ α) (s : σ) (t : τ) : Prop :=
  match y t with
  | .ok (a, t') => wp (fun e => R.Short e ∧ R.room s + R.spent t < R.spent t') x
      (fun b s' => b = a ∧ R.Rel s' t' ∧ R.room s + R.spent t ≤ R.room s' + R.spent t') s
  | .error f => R.Undef f ∨ wp (fun e => R.Fault f e ∨ R.Short e) x (fun _ _ => False) s

/-- What has been spent does not come back. -/
def Spends (R : Refinement σ τ ε φ) (y : Prog τ φ α) : Prop :=
  ∀ t a t', y t = .ok (a, t') → R.spent t ≤ R.spent t'

variable {x : Prog σ ε α} {y : Prog τ φ α} {f : α → Prog σ ε β} {g : α → Prog τ φ β}

theorem refines_ok {a : α} (hy : y t = .ok (a, t')) : Refines R x y s t ↔
    wp (fun e => R.Short e ∧ R.room s + R.spent t < R.spent t') x
      (fun b s' => b = a ∧ R.Rel s' t' ∧ R.room s + R.spent t ≤ R.room s' + R.spent t') s := by
  unfold Refines
  rw [hy]

theorem refines_error {e : φ} (hy : y t = .error e) : Refines R x y s t ↔
    R.Undef e ∨ wp (fun e' => R.Fault e e' ∨ R.Short e') x (fun _ _ => False) s := by
  unfold Refines
  rw [hy]

theorem refines_pure (h : R.Rel s t) (a : α) : Refines R (pure a) (pure a) s t :=
  ⟨rfl, h, Nat.le_refl _⟩

theorem spends_pure (a : α) : Spends R (pure a : Prog τ φ α) := by
  intro t b t' h
  cases h
  exact Nat.le_refl _

theorem bind_ok {c : β} (h : (y >>= g) t = .ok (c, t')) :
    ∃ a t₁, y t = .ok (a, t₁) ∧ g a t₁ = .ok (c, t') := by
  have hbind : (y >>= g) t = (y t >>= fun p => g p.1 p.2) := rfl
  rw [hbind] at h
  cases hy : y t with
  | error e =>
    rw [hy] at h
    cases h
  | ok p =>
    rw [hy] at h
    exact ⟨p.1, p.2, rfl, h⟩

theorem spends_bind (hy : Spends R y) (hg : ∀ a, Spends R (g a)) : Spends R (y >>= g) := by
  intro t c t' h
  obtain ⟨a, t₁, h₁, h₂⟩ := bind_ok h
  exact Nat.le_trans (hy t a t₁ h₁) (hg a t₁ c t' h₂)

theorem refines_bind (hx : Refines R x y s t) (hg : ∀ a, Spends R (g a))
    (hf : ∀ a s' t', R.Rel s' t' → Refines R (f a) (g a) s' t') :
    Refines R (x >>= f) (y >>= g) s t := by
  have hbind : (y >>= g) t = (y t >>= fun p => g p.1 p.2) := rfl
  cases hy : y t with
  | error e =>
    rw [refines_error hy] at hx
    rw [hy] at hbind
    rw [refines_error (hbind.trans rfl), wp_bind]
    exact hx.imp_right fun hx => wp_mono hx fun _ _ h => h.elim
  | ok p =>
    obtain ⟨a, t₁⟩ := p
    rw [hy] at hbind
    rw [refines_ok hy] at hx
    cases hga : g a t₁ with
    | error e =>
      rw [refines_error (hbind.trans hga), wp_bind]
      by_cases hu : R.Undef e
      · exact Or.inl hu
      · refine Or.inr (wp_mono (wp_weaken hx fun e he => Or.inr he.1) ?_)
        rintro b s₁ ⟨rfl, hrel, -⟩
        exact ((refines_error hga).mp (hf b s₁ t₁ hrel)).resolve_left hu
    | ok q =>
      obtain ⟨c, t₂⟩ := q
      have hle := hg a t₁ c t₂ hga
      rw [refines_ok (hbind.trans hga), wp_bind]
      refine wp_mono (wp_weaken hx fun e he => ⟨he.1, Nat.lt_of_lt_of_le he.2 hle⟩) ?_
      rintro b s₁ ⟨rfl, hrel, hroom⟩
      refine wp_mono (wp_weaken ((refines_ok hga).mp (hf b s₁ t₁ hrel)) ?_) ?_
      · rintro e ⟨he, hlt⟩
        exact ⟨he, by omega⟩
      · rintro c' s₂ ⟨hc, hrel', hroom'⟩
        exact ⟨hc, hrel', by omega⟩

section Alone

variable {F : Type → Type 1} {code : ∀ {β : Type}, F β → Prog σ ε β}
  {abs : ∀ {β : Type}, F β → Prog τ φ β}

theorem spends_alone (hs : ∀ {β : Type} (o : F β), Spends R (abs o)) (th : Thread F α) :
    Spends R (th.alone abs) := by
  induction th with
  | ret a => exact spends_pure a
  | ask o k ih => exact spends_bind (hs o) ih

/-- Threads refine each other if the operations do. -/
theorem refines_alone (hs : ∀ {β : Type} (o : F β), Spends R (abs o))
    (ho : ∀ {β : Type} (o : F β) s t, R.Rel s t → Refines R (code o) (abs o) s t)
    (th : Thread F α) (h : R.Rel s t) : Refines R (th.alone code) (th.alone abs) s t := by
  induction th generalizing s t with
  | ret a => exact refines_pure h a
  | ask o k ih =>
    exact refines_bind (ho o s t h) (fun b => spends_alone hs (k b)) fun b s' t' h' => ih b h'

end Alone

/-- A specification of the second program is one of the first. -/
theorem Refines.wp {E : φ → Prop} {Q : α → τ → Prop} (h : Refines R x y s t) (hy : Lib.wp E y Q t)
    (hE : ∀ e, E e → ¬ R.Undef e) :
    Lib.wp (fun e => (∃ e', E e' ∧ R.Fault e' e) ∨ R.Short e) x
      (fun a s' => ∃ t', R.Rel s' t' ∧ Q a t') s := by
  cases hyt : y t with
  | error e =>
    have he := wp_error hy hyt
    have hx := ((refines_error hyt).mp h).resolve_left (hE e he)
    exact wp_weaken (wp_mono hx fun _ _ h => h.elim) fun e' h' => h'.imp_left fun h' => ⟨e, he, h'⟩
  | ok p =>
    have hq : Q p.1 p.2 := wp_ok hy hyt
    refine wp_weaken (wp_mono ((refines_ok hyt).mp h) ?_) fun e he => Or.inr he.1
    rintro b s' ⟨rfl, hrel, -⟩
    exact ⟨p.2, hrel, hq⟩

/-- If the second program stops for no reason and spends little, the first can only run out. -/
theorem Refines.wp_room {Q : α → τ → Prop} {n : ℕ} (h : Refines R x y s t)
    (hy : Lib.wp (fun _ => False) y (fun a t' => Q a t' ∧ R.spent t' ≤ R.spent t + n) t) :
    Lib.wp (fun e => R.Short e ∧ R.room s < n) x
      (fun a s' => (∃ t', R.Rel s' t' ∧ Q a t') ∧ R.room s ≤ R.room s' + n) s := by
  obtain ⟨a, t', hyt, hq, hspent⟩ := wp_returns hy
  refine wp_weaken (wp_mono ((refines_ok hyt).mp h) ?_) ?_
  · rintro b s' ⟨rfl, hrel, hroom⟩
    exact ⟨⟨t', hrel, hq⟩, by omega⟩
  · rintro e ⟨he, hlt⟩
    exact ⟨he, by omega⟩

end Lib
