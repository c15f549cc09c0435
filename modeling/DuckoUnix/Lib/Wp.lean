import Mathlib.Logic.Basic

/-!
# Weakest preconditions for programs with a state and faults

A program over states `σ` returns a value and a new state, or stops with a fault.
`wp E x Q s` says that `x`, run in `s`, ends in a value and a state that `Q` allows or stops with
a fault that `E` allows. The rules take a program apart at its sequencing points; `wp_mono` is how
the specification of a callee is used.
-/

namespace Lib

/-- Programs over states `σ` that can stop with a fault `ε`. -/
abbrev Prog (σ ε α : Type) := StateT σ (Except ε) α

variable {σ ε α β : Type} {E : ε → Prop} {s : σ}

/-- `x` run in `s` ends as `Q` says or faults as `E` says. -/
def wp (E : ε → Prop) (x : Prog σ ε α) (Q : α → σ → Prop) (s : σ) : Prop :=
  match x s with
  | .ok (a, t) => Q a t
  | .error e => E e

@[simp] theorem wp_pure {a : α} {Q : α → σ → Prop} : wp E (pure a) Q s ↔ Q a s := Iff.rfl

@[simp] theorem wp_get {Q : σ → σ → Prop} : wp E get Q s ↔ Q s s := Iff.rfl

@[simp] theorem wp_set {t : σ} {Q : PUnit → σ → Prop} : wp E (set t) Q s ↔ Q ⟨⟩ t := Iff.rfl

@[simp] theorem wp_modify {f : σ → σ} {Q : PUnit → σ → Prop} :
    wp E (modify f) Q s ↔ Q ⟨⟩ (f s) := Iff.rfl

@[simp] theorem wp_bind {x : Prog σ ε α} {f : α → Prog σ ε β} {Q : β → σ → Prop} :
    wp E (x >>= f) Q s ↔ wp E x (fun a t => wp E (f a) Q t) s := by
  show (match (x s >>= fun p => f p.1 p.2) with | .ok (a, t) => Q a t | .error e => E e) ↔
    match x s with | .ok (a, t) => wp E (f a) Q t | .error e => E e
  cases x s with
  | error e => exact Iff.rfl
  | ok p => exact Iff.rfl

theorem wp_mono {x : Prog σ ε α} {Q Q' : α → σ → Prop} (h : wp E x Q s)
    (hQ : ∀ a t, Q a t → Q' a t) : wp E x Q' s := by
  unfold wp at h ⊢
  cases hx : x s with
  | error e => rw [hx] at h; exact h
  | ok p => rw [hx] at h; exact hQ p.1 p.2 h

theorem wp_weaken {E' : ε → Prop} {x : Prog σ ε α} {Q : α → σ → Prop} (h : wp E x Q s)
    (hE : ∀ e, E e → E' e) : wp E' x Q s := by
  unfold wp at h ⊢
  cases hx : x s with
  | error e => rw [hx] at h; exact hE e h
  | ok p => rw [hx] at h; exact h

theorem wp_and {x : Prog σ ε α} {Q Q' : α → σ → Prop} (h : wp E x Q s) (h' : wp E x Q' s) :
    wp E x (fun a t => Q a t ∧ Q' a t) s := by
  unfold wp at h h' ⊢
  cases hx : x s with
  | error e => rw [hx] at h; exact h
  | ok p => rw [hx] at h h'; exact ⟨h, h'⟩

/-- Two specifications with faults of their own. -/
theorem wp_both {E' : ε → Prop} {x : Prog σ ε α} {Q Q' : α → σ → Prop} (h : wp E x Q s)
    (h' : wp E' x Q' s) : wp (fun e => E e ∧ E' e) x (fun a t => Q a t ∧ Q' a t) s := by
  unfold wp at h h' ⊢
  cases hx : x s with
  | error e => rw [hx] at h h'; exact ⟨h, h'⟩
  | ok p => rw [hx] at h h'; exact ⟨h, h'⟩

/-- Two specifications that nothing meets together do not both hold. -/
theorem wp_absurd {E' : ε → Prop} {x : Prog σ ε α} {Q Q' : α → σ → Prop} (h : wp E x Q s)
    (h' : wp E' x Q' s) (hE : ∀ e, E e → ¬ E' e) (hQ : ∀ a t, Q a t → ¬ Q' a t) : False := by
  unfold wp at h h'
  cases hx : x s with
  | error e => rw [hx] at h h'; exact hE e h h'
  | ok p => rw [hx] at h h'; exact hQ p.1 p.2 h h'

theorem wp_ite {c : Prop} [Decidable c] {x y : Prog σ ε α} {Q : α → σ → Prop}
    (hc : c → wp E x Q s) (hn : ¬ c → wp E y Q s) : wp E (if c then x else y) Q s := by
  by_cases h : c
  · rw [if_pos h]; exact hc h
  · rw [if_neg h]; exact hn h

theorem wp_ok {x : Prog σ ε α} {Q : α → σ → Prop} (h : wp E x Q s) {a : α} {t : σ}
    (hx : x s = .ok (a, t)) : Q a t := by
  unfold wp at h
  rw [hx] at h
  exact h

theorem wp_error {x : Prog σ ε α} {Q : α → σ → Prop} (h : wp E x Q s) {e : ε}
    (hx : x s = .error e) : E e := by
  unfold wp at h
  rw [hx] at h
  exact h

/-- The run itself, beside what a specification says of it. -/
theorem wp_run {x : Prog σ ε α} {Q : α → σ → Prop} (h : wp E x Q s) :
    wp E x (fun a t => x s = .ok (a, t) ∧ Q a t) s := by
  unfold wp at h ⊢
  cases hx : x s with
  | error e =>
    rw [hx] at h
    exact h
  | ok p =>
    rw [hx] at h
    exact ⟨rfl, h⟩

/-- A program that cannot fault returns. -/
theorem wp_returns {x : Prog σ ε α} {Q : α → σ → Prop} (h : wp (fun _ => False) x Q s) :
    ∃ a t, x s = .ok (a, t) ∧ Q a t := by
  cases hx : x s with
  | error e => exact (wp_error h hx).elim
  | ok p => exact ⟨p.1, p.2, rfl, wp_ok h hx⟩

/-- A program that cannot return faults. -/
theorem wp_faults {x : Prog σ ε α} (h : wp E x (fun _ _ => False) s) : ∃ e, x s = .error e ∧ E e := by
  cases hx : x s with
  | error e => exact ⟨e, rfl, wp_error h hx⟩
  | ok p => exact (wp_ok h hx).elim

end Lib
