import DuckoUnix.Sched.Lifecycle

/-!
# Pids of the processes that are there

`allocproc` hands out `nextpid++` and looks at no pid in use. The pids of the processes that are there
are positive and distinct exactly as long as each `fork` that takes an entry finds `nextpid` positive
and not in use, as it does for the first 2³¹ - 1 processes. After that they turn negative, and a run
of 2³² processes gives a second process the pid of init.
-/

namespace DuckoUnix.Sched

open Lib Function

variable {ncpu : ℕ} {s s' : Sys ncpu} {a : Act ncpu} {p np i : Fin NPROC}

/-- The processes have positive pids, and no two of them one pid. -/
structure DistinctPids (s : Sys ncpu) : Prop where
  pos : ∀ i, (s.proc i).state ≠ .UNUSED → 0 < (s.proc i).pid.toInt
  inj : ∀ i j, (s.proc i).state ≠ .UNUSED → (s.proc j).state ≠ .UNUSED →
    (s.proc i).pid = (s.proc j).pid → i = j

/-- The entry of the table that a step takes for a new process. -/
def taken (s : Sys ncpu) : Act ncpu → Option (Fin NPROC)
  | .fork c => (curproc s c .other).bind fun _ => unusedSlot s
  | _ => none

/-- A step that takes an entry finds `nextpid` positive and not in use. -/
def NextFree (s : Sys ncpu) (a : Act ncpu) : Prop :=
  (taken s a).isSome → 0 < s.nextpid.toInt ∧
    ∀ i, (s.proc i).state ≠ .UNUSED → (s.proc i).pid ≠ s.nextpid

theorem unusedSlot_isSome (h : (s.proc np).state = .UNUSED) : (unusedSlot s).isSome :=
  List.find?_isSome.mpr ⟨np, List.mem_finRange np, decide_eq_true h⟩

/-! ## A step -/

theorem step_taken (hs : step s a = some s') (ht : taken s a = some np) :
    (s.proc np).state = .UNUSED ∧ s'.allocs = s.allocs + 1 ∧
      s'.proc = update s.proc np { s.proc np with state := .EMBRYO, pid := s.nextpid } := by
  cases a with
  | fork c =>
    obtain ⟨p, hc, hslot⟩ := Option.bind_eq_some_iff.mp ht
    obtain ⟨q, hc', rfl⟩ := Option.map_eq_some_iff.mp hs
    have hnp := List.find?_some hslot
    unfold allocproc
    rw [hslot]
    exact ⟨of_decide_eq_true hnp, rfl, rfl⟩
  | _ => cases ht

theorem step_not_taken (hs : step s a = some s') (ht : taken s a = none) :
    s'.allocs = s.allocs := by
  have he := step_effect hs
  cases he with
  | alloc hc hpc hnp =>
    have hslot : unusedSlot s = none := by
      rw [taken, curproc_eq_some.mpr ⟨hc, hpc⟩] at ht
      exact ht
    have := unusedSlot_isSome hnp
    rw [hslot] at this
    cases this
  | _ => rfl

theorem step_allocs_le (hs : step s a = some s') : s.allocs ≤ s'.allocs := by
  cases ht : taken s a with
  | none => exact (step_not_taken hs ht).ge
  | some np => exact (step_taken hs ht).2.1 ▸ Nat.le_succ _

theorem run_allocs_le {acts : List (Act ncpu)} (h : run step s acts = some s') :
    s.allocs ≤ s'.allocs :=
  run_invariant' (I := fun t => s.allocs ≤ t.allocs)
    (fun _ _ _ hle hs => hle.trans (step_allocs_le hs)) (Nat.le_refl _) h

theorem DistinctPids.keep (h : DistinctPids s) (hk : KeepsPids s.proc s'.proc) :
    DistinctPids s' where
  pos := fun i hi => by
    obtain ⟨hi, e⟩ := hk i hi
    rw [e]
    exact h.pos i hi
  inj := fun i j hi hj e => by
    obtain ⟨hi, ei⟩ := hk i hi
    obtain ⟨hj, ej⟩ := hk j hj
    exact h.inj i j hi hj (ei ▸ ej ▸ e)

theorem DistinctPids.take (h : DistinctPids s) {x : Proc} (hx : x.state ≠ .UNUSED)
    (hnp : (s.proc np).state = .UNUSED) (hproc : s'.proc = update s.proc np x) :
    DistinctPids s' ↔
      0 < x.pid.toInt ∧ ∀ i, (s.proc i).state ≠ .UNUSED → (s.proc i).pid ≠ x.pid := by
  have hself : s'.proc np = x := by rw [hproc, update_self]
  have hother : ∀ i, i ≠ np → s'.proc i = s.proc i := fun i hi => by
    rw [hproc, update_of_ne hi]
  have hne : ∀ i, (s.proc i).state ≠ .UNUSED → i ≠ np := by
    rintro i hi rfl
    exact hi hnp
  constructor
  · intro h'
    refine ⟨?_, fun i hi e => hne i hi ?_⟩
    · rw [← hself]
      exact h'.pos np (by rwa [hself])
    · refine h'.inj i np ?_ (by rwa [hself]) ?_
      · rwa [hother i (hne i hi)]
      · rwa [hself, hother i (hne i hi)]
  · rintro ⟨hpos, hfree⟩
    constructor
    · intro i hi
      by_cases e : i = np
      · rwa [e, hself]
      · rw [hother i e] at hi ⊢
        exact h.pos i hi
    · intro i j hi hj hij
      rw [hproc] at hi hj hij
      refine unique_update (R := fun pid (y : Proc) => y.state ≠ .UNUSED ∧ y.pid = pid) ?_ ?_ i j _
        ⟨hi, hij⟩ ⟨hj, rfl⟩
      · exact fun i j _ hi hj => h.inj i j hi.1 hj.1 (hi.2.trans hj.2.symm)
      · exact fun j _ _ hx hj => hfree j hj.1 (hj.2.trans hx.2.symm)

/-- A step from distinct pids leads to distinct pids exactly if the next pid is free when one is
given out. -/
theorem step_distinctPids (hi : Inv s) (h : DistinctPids s) (hs : step s a = some s') :
    DistinctPids s' ↔ NextFree s a := by
  cases ht : taken s a with
  | none =>
    refine iff_of_true (h.keep ((step_effect hs).keepsPids hi (step_not_taken hs ht))) ?_
    rw [NextFree, ht]
    exact nofun
  | some np =>
    obtain ⟨hnp, -, hproc⟩ := step_taken hs ht
    rw [NextFree, ht, h.take (by exact nofun) hnp hproc]
    exact ⟨fun h _ => h, fun h => h rfl⟩

/-! ## Runs -/

theorem boot_distinctPids : DistinctPids (boot : Sys ncpu) := by
  constructor
  · intro i hi
    rw [boot_used hi]
    exact (by decide : 0 < (1 : Pid).toInt)
  · intro i j hi hj _
    rw [boot_used hi, boot_used hj]

theorem pidOf_pos {n : ℕ} (h : n + 1 < 2 ^ 31) : 0 < (pidOf n).toInt := by
  unfold pidOf
  rw [BitVec.toInt_eq_toNat_bmod, BitVec.toNat_ofNat, Int.bmod_def]
  split <;> omega

/-- The first 2³¹ - 1 pids are free when they are given out. -/
theorem PidsOk.nextFree {serial : Fin NPROC → ℕ} {gone : List ℕ} (h : PidsOk s serial gone)
    (hlt : s.allocs + 1 < 2 ^ 31) : NextFree s a := by
  intro _
  rw [h.next]
  refine ⟨pidOf_pos hlt, fun i hi e => ?_⟩
  have hserial := h.lt i hi
  rw [h.pid i hi] at e
  have := pidOf_inj (by omega) (by omega) e
  omega

/-- In a run from boot the processes have distinct positive pids in every state exactly if every `fork`
that takes an entry finds `nextpid` positive and not in use. The first 2³¹ - 1 processes do. -/
theorem distinctPids_iff (acts : List (Act ncpu)) (s : Sys ncpu)
    (hrun : run step boot acts = some s) :
    ((∀ bs cs, acts = bs ++ cs → ∀ t, run step boot bs = some t → DistinctPids t) ↔
      Meets step NextFree boot acts) ∧
    (s.allocs < 2 ^ 31 → Meets step NextFree boot acts) := by
  refine ⟨⟨fun h => ?_, ?_⟩, fun hlt => ?_⟩
  · refine meets_of_prefixes fun bs a cs has t ht => ?_
    rw [has] at hrun
    obtain ⟨t', ht', hrun⟩ := run_append_eq_some.mp hrun
    rw [ht] at ht'
    cases ht'
    obtain ⟨u, hu, -⟩ := run_cons_eq_some.mp hrun
    have hbs : run step boot (bs ++ [a]) = some u :=
      run_append_eq_some.mpr ⟨t, ht, (run_singleton t a).trans hu⟩
    have hu' := h (bs ++ [a]) cs (by rw [has, List.append_assoc]; rfl) u hbs
    exact (step_distinctPids (run_inv_pids ht).1 (h bs (a :: cs) has t ht) hu).mp hu'
  · rintro h bs cs rfl t ht
    have hI : Inv t ∧ DistinctPids t :=
      run_invariant (I := fun t => Inv t ∧ DistinctPids t)
        (fun _ _ _ hI hok hs => ⟨step_inv hI.1 hs, (step_distinctPids hI.1 hI.2 hs).mpr hok⟩)
        ⟨(run_inv_pids (run_nil boot)).1, boot_distinctPids⟩ h.of_append ht
    exact hI.2
  · refine meets_of_prefixes fun bs a cs has t ht => ?_
    rw [has] at hrun
    obtain ⟨t', ht', hrun⟩ := run_append_eq_some.mp hrun
    rw [ht] at ht'
    cases ht'
    obtain ⟨u, hu, hrun⟩ := run_cons_eq_some.mp hrun
    have hle := run_allocs_le hrun
    cases htk : taken t a with
    | none =>
      rw [NextFree, htk]
      exact nofun
    | some np =>
      obtain ⟨-, hallocs, -⟩ := step_taken hu htk
      obtain ⟨-, serial, gone, hpids⟩ := run_inv_pids ht
      exact hpids.nextFree (by omega)

/-- init forks a child that runs and exits. -/
theorem distinctPids_iff_child : ∃ s : Sys 1,
    run step boot (.scheduler 0 first :: childExits) = some s ∧ s.allocs = 2 ∧ DistinctPids s := by
  have heval : (run step (boot : Sys 1) (.scheduler 0 first :: childExits)).map (·.allocs) =
      some 2 := by
    decide +kernel
  obtain ⟨s, hrun, hallocs⟩ := Option.map_eq_some_iff.mp heval
  obtain ⟨hiff, hfew⟩ := distinctPids_iff _ s hrun
  have hmeets := hfew (by omega)
  exact ⟨s, hrun, hallocs, hiff.mpr hmeets _ [] (List.append_nil _).symm s hrun⟩

/-- A run with a process whose pid is negative, and a longer one where a child has the pid of init. -/
theorem pid_negative_and_shared :
    (∃ (acts : List (Act 1)) (s : Sys 1), run step boot acts = some s ∧
      (s.proc second).state ≠ .UNUSED ∧ (s.proc second).pid.toInt < 0) ∧
    ∃ (acts : List (Act 1)) (s : Sys 1), run step boot acts = some s ∧
      (s.proc first).state ≠ .UNUSED ∧ (s.proc second).state ≠ .UNUSED ∧
      (s.proc first).pid = (s.proc second).pid := by
  have hneg : (run step (boot : Sys 1) [.scheduler 0 first]).map (fun s => (decide (Forks s),
      (run step (failForks s 2147483645) [.fork 0]).map fun s =>
        decide ((s.proc second).state ≠ .UNUSED ∧ (s.proc second).pid.toInt < 0))) =
      some (true, some true) := by
    decide +kernel
  have hsame : (run step (boot : Sys 1) [.scheduler 0 first]).map (fun s => (decide (Forks s),
      (run step (failForks s 4294967294) [.fork 0]).map fun s =>
        decide ((s.proc first).state ≠ .UNUSED ∧ (s.proc second).state ≠ .UNUSED ∧
          (s.proc first).pid = (s.proc second).pid))) = some (true, some true) := by
    decide +kernel
  constructor
  · obtain ⟨acts, s, hrun, h⟩ := exists_run_failForks hneg
    exact ⟨acts, s, hrun, of_decide_eq_true h⟩
  · obtain ⟨acts, s, hrun, h⟩ := exists_run_failForks hsame
    exact ⟨acts, s, hrun, of_decide_eq_true h⟩

end DuckoUnix.Sched
