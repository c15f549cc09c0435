import DuckoUnix.Log.Isolation

/-!
# Waiting in `begin_op`

A process sleeps on `&log` only for as long as `begin_op` has to wait: every section that could end
the reason for waiting also calls `wakeup`. Since an idle log is empty, there is always an operation
or a commit whose end wakes the sleepers.
-/

namespace DuckoUnix.LogOps

open Lib Function

variable {N : ℕ} {s s' : State N} {p q : Fin N}

/-- Whoever sleeps has a reason to. -/
def Waiting (s : State N) : Prop := ∀ p, s.procs p = .begin true → s.log.waits

/-- The process that moves does not go to sleep, and the reason of the others stays. -/
theorem Waiting.move (h : Waiting s) {x : PState} (s' : State N)
    (hprocs : s'.procs = update s.procs p x) (hx : x ≠ .begin true)
    (hlog : s.log.waits → s'.log.waits) : Waiting s' := by
  intro q hq
  rw [hprocs] at hq
  by_cases e : q = p
  · rw [e, update_self] at hq
    exact absurd hq hx
  · rw [update_of_ne e] at hq
    exact hlog (h q hq)

theorem wakeup_awake (procs : Fin N → PState) (q : Fin N) : wakeup procs q ≠ .begin true := by
  intro hq
  rcases wakeup_cases procs q with h | ⟨-, h⟩
  · unfold wakeup at hq h
    rw [h] at hq
    rw [if_pos hq] at h
    rw [hq] at h
    cases h
  · rw [h] at hq
    cases hq

theorem waiting_of_wakeup (s' : State N) {procs : Fin N → PState}
    (hprocs : s'.procs = update (wakeup procs) p .idle) : Waiting s' := by
  intro q hq
  rw [hprocs] at hq
  have hidle : PState.idle ≠ .begin true := nofun
  exact (forall_update (P := fun x => x ≠ .begin true) hidle (wakeup_awake procs) q hq).elim

theorem length_le_absorb (block : List ℕ) (b : ℕ) : block.length ≤ (absorb block b).length := by
  unfold absorb
  split_ifs
  · exact Nat.le_refl _
  · rw [List.length_append]
    exact Nat.le_add_right _ _

theorem step_waiting {a : Act N} (hs : Step s a s') (hI : Inv s) (h : Waiting s) : Waiting s' := by
  cases hs with
  | wait hp hw => exact fun q _ => hw
  | @enter p hp hw =>
    intro q hq
    by_cases e : q = p
    · rw [e] at hq
      simp at hq
    · have hq : s.procs q = .begin true := by simpa [update_of_ne e] using hq
      exact absurd (h q hq) hw
  | tooBig hp hb => exact h
  | outside hp ho => exact h
  | check hp hb => exact h.move _ rfl nofun id
  | outOfBounds hp => exact h
  | @write p o logged b hp =>
    refine h.move _ rfl nofun (Or.imp_right fun hw => lt_of_lt_of_le hw ?_)
    have := length_le_absorb s.log.block b
    show (s.log.block.length : ℤ) + (s.log.outstanding + 1) * MAXOPBLOCKS ≤
      ((absorb s.log.block b).length : ℤ) + (s.log.outstanding + 1) * MAXOPBLOCKS
    omega
  | nested hp hc => exact h
  | last hp hc ho => exact fun _ _ => Or.inl rfl
  | leave hp hc ho => exact waiting_of_wakeup _ rfl
  | writeLog hp ht => exact h.move _ rfl nofun id
  | head hp ht => exact h.move _ rfl nofun id
  | install hp ht => exact h.move _ rfl nofun id
  | @clear p tail hp ht =>
    -- the log becomes empty, but the commit is still running
    have hc : s.log.committing = true := hI.committing.mpr ⟨p, by rw [hp]; rfl⟩
    exact h.move _ rfl nofun fun _ => Or.inl hc
  | clearHead hp => exact h.move _ rfl nofun id
  | done hp => exact waiting_of_wakeup _ rfl
  | kill hp => exact h.move _ rfl nofun id

theorem run_waiting {start : ℕ} {as : List (Act N)}
    (h : run step (init N start) as = some s) : Waiting s := by
  refine (run_invariant' (I := fun s => Inv s ∧ Waiting s) ?_ ⟨init_inv start, nofun⟩ h).2
  rintro s a s' ⟨hI, hW⟩ hs
  have hs := (step_of_step hs).2
  exact ⟨step_inv hs hI, step_waiting hs hI hW⟩

theorem block_of_idle (hI : Inv s) (hH : History s) (hB : Busy s) (hout : s.log.outstanding = 0)
    (hcom : s.log.committing = false) : s.log.block = [] := by
  have hpending : pending s.events = [] := by
    rcases hB with h | h | h
    · exact h
    · rw [hcom] at h
      cases h
    · rw [hout] at h
      exact absurd h (lt_irrefl 0)
  have hnohead : ∀ q, (s.procs q).pastHead = false := by
    intro q
    refine not_pastHead (Bool.eq_false_iff.mpr fun hq => ?_)
    rw [hI.committing.mpr ⟨q, hq⟩] at hcom
    cases hcom
  refine List.eq_nil_iff_forall_not_mem.mpr fun b hb => ?_
  obtain ⟨o, ho⟩ := (hH.block hnohead b).mp hb
  rw [hpending] at ho
  cases ho

/-- Somebody is there to end a wait. -/
theorem busy_of_waits (hI : Inv s) (hidle : s.log.outstanding = 0 → s.log.committing = false →
    s.log.block = []) (hw : s.log.waits) :
    0 < s.log.outstanding ∨ ∃ p, (s.procs p).inCommit = true := by
  by_cases hc : s.log.committing = true
  · exact Or.inr (hI.committing.mp hc)
  · have hc : s.log.committing = false := by simpa using hc
    refine Or.inl (lt_of_le_of_ne ?_ fun h0 => ?_)
    · rw [hI.outstanding]
      exact opCount_nonneg _
    · rcases hw with hw | hw
      · rw [hc] at hw
        cases hw
      · -- an operation that is alone has the whole log
        rw [hidle h0.symm hc, ← h0] at hw
        exact absurd hw (by decide)

/-- In every state of every run of `begin_op`, `log_write` and `end_op` by any number of processes:
whoever sleeps in `begin_op` waits for a commit or for space, and then an operation is outstanding
or a commit is in progress, at whose end the sleepers are woken; and when no operation is outstanding
and nobody commits, the log is empty. -/
theorem begin_op_not_stranded (start : ℕ) (as : List (Act N)) (s : State N)
    (h : run step (init N start) as = some s) :
    (∀ p, s.procs p = .begin true →
      (s.log.committing = true ∨
        (LOGSIZE : ℤ) < s.log.block.length + (s.log.outstanding + 1) * MAXOPBLOCKS) ∧
      (0 < s.log.outstanding ∨ ∃ q, (s.procs q).inCommit = true)) ∧
    (s.log.outstanding = 0 → s.log.committing = false → s.log.block = []) := by
  obtain ⟨hI, hH, hB⟩ := run_history h
  have hidle : s.log.outstanding = 0 → s.log.committing = false → s.log.block = [] :=
    block_of_idle hI hH hB
  refine ⟨fun p hp => ?_, hidle⟩
  have hw := run_waiting h p hp
  exact ⟨hw, busy_of_waits hI hidle hw⟩

/-- Four operations at once: the fourth process sleeps while the three others are outstanding. -/
theorem begin_op_not_stranded_fourth :
    ∃ s : State 4, run step (init 4 2) [.beginOp 0, .beginOp 1, .beginOp 2, .beginOp 3] = some s ∧
      s.procs 3 = .begin true ∧ 0 < s.log.outstanding := by
  have hrun : (run step (init 4 2) [.beginOp 0, .beginOp 1, .beginOp 2, .beginOp 3]).map
      (fun s => (s.procs 3, s.log.committing)) = some (.begin true, false) := by decide +kernel
  obtain ⟨s, hs, hp⟩ := Option.map_eq_some_iff.mp hrun
  have hp3 : s.procs 3 = .begin true := congrArg Prod.fst hp
  have hcom : s.log.committing = false := congrArg Prod.snd hp
  have hall := begin_op_not_stranded 2 _ s hs
  refine ⟨s, hs, hp3, ?_⟩
  rcases (hall.1 3 hp3).2 with h | h
  · exact h
  · have := (run_history hs).1.committing.mpr h
    rw [hcom] at this
    cases this

end DuckoUnix.LogOps
