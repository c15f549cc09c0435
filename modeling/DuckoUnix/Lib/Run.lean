import Mathlib.Data.List.Basic

/-!
# Runs of a partial step function

A system is a type of states, a type of actions and a function `step` that gives the next state
of an action, or `none` when the action cannot be taken. `run` folds `step` over a list of
actions; `Meets step ok s as` says that every action of the run is taken in a state that `ok`
allows. `run_invariant` is the induction every safety proof uses: what each allowed step
preserves holds at the end of every run all of whose steps are allowed.
-/

namespace Lib

variable {σ α : Type*} {step : σ → α → Option σ}

/-- The state after the actions `as`, if each of them can be taken in turn. -/
def run (step : σ → α → Option σ) : σ → List α → Option σ
  | s, [] => some s
  | s, a :: as => (step s a).bind fun s' => run step s' as

/-- Every action of the run from `s` is taken in a state that `ok` allows. -/
def Meets (step : σ → α → Option σ) (ok : σ → α → Prop) : σ → List α → Prop
  | _, [] => True
  | s, a :: as => ok s a ∧ ∀ s', step s a = some s' → Meets step ok s' as

@[simp] theorem run_nil (s : σ) : run step s [] = some s := rfl

theorem run_cons (s : σ) (a : α) (as : List α) :
    run step s (a :: as) = (step s a).bind fun s' => run step s' as := rfl

theorem run_cons_eq_some {s s' : σ} {a : α} {as : List α} :
    run step s (a :: as) = some s' ↔ ∃ t, step s a = some t ∧ run step t as = some s' := by
  rw [run_cons, Option.bind_eq_some_iff]

theorem run_append (s : σ) (as bs : List α) :
    run step s (as ++ bs) = (run step s as).bind fun t => run step t bs := by
  induction as generalizing s with
  | nil => rfl
  | cons a as ih =>
    rw [List.cons_append, run_cons, run_cons, Option.bind_assoc]
    exact congrArg _ (funext fun t => ih t)

theorem run_append_eq_some {s s' : σ} {as bs : List α} :
    run step s (as ++ bs) = some s' ↔ ∃ t, run step s as = some t ∧ run step t bs = some s' := by
  rw [run_append, Option.bind_eq_some_iff]

theorem run_singleton (s : σ) (a : α) : run step s [a] = step s a := by
  rw [run_cons]
  cases step s a <;> rfl

/-- What every allowed step preserves holds after every run of allowed steps. -/
theorem run_invariant {I : σ → Prop} {ok : σ → α → Prop}
    (hstep : ∀ s a s', I s → ok s a → step s a = some s' → I s') {as : List α} :
    ∀ {s s' : σ}, I s → Meets step ok s as → run step s as = some s' → I s' := by
  induction as with
  | nil =>
    intro s s' hI _ h
    cases h
    exact hI
  | cons a as ih =>
    intro s s' hI hok h
    obtain ⟨t, ht, h⟩ := run_cons_eq_some.mp h
    exact ih (hstep s a t hI hok.1 ht) (hok.2 t ht) h

/-- What is allowed of an action in any state is allowed along every run. -/
theorem meets_of_forall {P : α → Prop} {as : List α} (h : ∀ a ∈ as, P a) :
    ∀ s : σ, Meets step (fun _ a => P a) s as := by
  induction as with
  | nil => intro s; trivial
  | cons a as ih =>
    intro s
    exact ⟨h a List.mem_cons_self, fun t _ => ih (fun b hb => h b (List.mem_cons_of_mem _ hb)) t⟩

theorem run_invariant' {I : σ → Prop} (hstep : ∀ s a s', I s → step s a = some s' → I s')
    {as : List α} {s s' : σ} (hI : I s) (h : run step s as = some s') : I s' :=
  run_invariant (fun s a s' hI _ h => hstep s a s' hI h) hI (meets_of_forall (fun _ _ => trivial) s) h

theorem Meets.and {ok ok' : σ → α → Prop} {as : List α} :
    ∀ {s : σ}, Meets step ok s as → Meets step ok' s as →
      Meets step (fun s a => ok s a ∧ ok' s a) s as := by
  induction as with
  | nil => intro s _ _; trivial
  | cons a as ih => intro s h h'; exact ⟨⟨h.1, h'.1⟩, fun t ht => ih (h.2 t ht) (h'.2 t ht)⟩

/-- A prefix of a run of allowed steps is one. -/
theorem Meets.of_append {ok : σ → α → Prop} {as bs : List α} :
    ∀ {s : σ}, Meets step ok s (as ++ bs) → Meets step ok s as := by
  induction as with
  | nil => intro s _; trivial
  | cons a as ih => intro s h; exact ⟨h.1, fun t ht => ih (h.2 t ht)⟩

theorem Meets.drop {ok : σ → α → Prop} {as bs : List α} {t : σ} :
    ∀ {s : σ}, Meets step ok s (as ++ bs) → run step s as = some t → Meets step ok t bs := by
  induction as with
  | nil =>
    intro s h hrun
    cases hrun
    exact h
  | cons a as ih =>
    intro s h hrun
    obtain ⟨u, hu, hrun⟩ := run_cons_eq_some.mp hrun
    exact ih (h.2 u hu) hrun

/-- A run is allowed when each of its steps is, read off at the prefix before the step. -/
theorem meets_of_prefixes {ok : σ → α → Prop} {as : List α} :
    ∀ {s : σ}, (∀ bs a cs, as = bs ++ a :: cs → ∀ t, run step s bs = some t → ok t a) →
      Meets step ok s as := by
  induction as with
  | nil => intro s _; trivial
  | cons a as ih =>
    intro s h
    refine ⟨h [] a as rfl s rfl, fun t ht => ih fun bs b cs hbs u hu => ?_⟩
    exact h (a :: bs) b cs (by rw [hbs]; rfl) u (run_cons_eq_some.mpr ⟨t, ht, hu⟩)

instance Meets.decidable {ok : σ → α → Prop} [∀ s a, Decidable (ok s a)] :
    ∀ (s : σ) (as : List α), Decidable (Meets step ok s as)
  | _, [] => isTrue trivial
  | s, a :: as =>
    match h : step s a with
    | none => decidable_of_iff (ok s a)
        ⟨fun hok => ⟨hok, fun t ht => by rw [h] at ht; cases ht⟩, And.left⟩
    | some t =>
      have : Decidable (Meets step ok t as) := Meets.decidable t as
      decidable_of_iff (ok s a ∧ Meets step ok t as)
        ⟨fun hok => ⟨hok.1, fun u hu => by rw [h] at hu; cases hu; exact hok.2⟩,
          fun hok => ⟨hok.1, hok.2 t h⟩⟩

end Lib
