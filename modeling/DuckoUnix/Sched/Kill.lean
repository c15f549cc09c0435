import DuckoUnix.Sched.Running
import Mathlib.Algebra.GroupWithZero.Nat

/-!
# What kill reaches

An entry keeps its pid and its mark `killed` when a `fork` fails, `kill` looks at entries that are
`UNUSED` too, and `allocproc` does not clear the mark. So a mark can be left in an unused entry, and
the next process there is born killed. Where no `kill` has the pid of an unused entry and no `fork`
fails with a marked one, a marked process has faulted or a `kill` has named it.
-/

namespace DuckoUnix.Sched

open Lib Function

variable {ncpu : ℕ} {s s' : Sys ncpu} {a : Act ncpu} {p : Fin NPROC} {x : Proc}

/-- No unused entry has the pid of a `kill`, and `fork` does not fail with a marked entry. -/
def Fair (s : Sys ncpu) : Act ncpu → Prop
  | .kill pid => ∀ i, (s.proc i).pid = pid → (s.proc i).state ≠ .UNUSED
  | .forkFails c => ∀ p ∈ s.cpu c, ∀ np, s.pc p = .forking np → (s.proc np).killed = false
  | _ => True

instance Fair.decidable (s : Sys ncpu) : ∀ a, Decidable (Fair s a)
  | .kill pid => inferInstanceAs
    (Decidable (∀ i, (s.proc i).pid = pid → (s.proc i).state ≠ .UNUSED))
  | .forkFails c => inferInstanceAs
    (Decidable (∀ p ∈ s.cpu c, ∀ np, s.pc p = .forking np → (s.proc np).killed = false))
  | .scheduler _ _ | .yield _ | .sleep _ _ | .wakeup _ | .fork _ | .forkCopies _ | .forkReturns _
  | .exit _ | .wait _ | .fault _ => isTrue trivial

/-- A marked entry is in use, and its process has faulted or been named by a `kill`. -/
def MarksOk (s : Sys ncpu) : Prop :=
  ∀ i, (s.proc i).killed = true → (s.proc i).state ≠ .UNUSED ∧ s.hit i = true

theorem boot_marks : MarksOk (boot : Sys ncpu) := by
  intro i hi
  unfold boot at hi
  dsimp only at hi
  split at hi <;> cases hi

theorem MarksOk.set (h : MarksOk s) (hproc : s'.proc = update s.proc p x)
    (hhit : ∀ i, i ≠ p → s.hit i = true → s'.hit i = true)
    (hx : x.killed = true → x.state ≠ .UNUSED ∧ s'.hit p = true) : MarksOk s' := by
  intro i hi
  rw [hproc] at hi ⊢
  by_cases e : i = p
  · rw [e, update_self] at hi ⊢
    exact hx hi
  · rw [update_of_ne e] at hi ⊢
    exact ⟨(h i hi).1, hhit i e (h i hi).2⟩

theorem MarksOk.wakes (h : MarksOk s) (hw : Wakes s.proc s'.proc)
    (hhit : ∀ i, s.hit i = true → s'.hit i = true) : MarksOk s' := by
  intro i hi
  rw [hw.killed] at hi
  refine ⟨fun e => (h i hi).1 ?_, hhit i (h i hi).2⟩
  rwa [hw.state_iff (by decide) (by decide)] at e

theorem step_marks (h : MarksOk s) (hi : Inv s) (hf : Fair s a) (hs : step s a = some s') : MarksOk s' := by
  cases step_effect hs with
  | scheduler => exact h.set rfl (fun _ _ => id) fun hx => ⟨nofun, (h _ hx).2⟩
  | yield => exact h.set rfl (fun _ _ => id) fun hx => ⟨nofun, (h _ hx).2⟩
  | sleep => exact h.set rfl (fun _ _ => id) fun hx => ⟨nofun, (h _ hx).2⟩
  | wakeup => exact h.wakes wakeup1_wakes fun _ => id
  | full => exact h
  | alloc _ _ hnp =>
    -- an unused entry has no mark for the new process to inherit
    refine h.set rfl (fun i hi ht => ?_) fun hx => absurd hnp (h _ hx).1
    show update s.hit _ false i = true
    rw [update_of_ne hi, ht]
  | forkFails hc hpc =>
    refine h.set rfl (fun _ _ => id) fun hx => ?_
    have := hf _ hc _ hpc
    rw [show (s.proc _).killed = true from hx] at this
    cases this
  | forkCopies => exact h.set rfl (fun _ _ => id) fun hx => h _ hx
  | forkReturns => exact h.set rfl (fun _ _ => id) fun hx => ⟨nofun, (h _ hx).2⟩
  | @exit c p proc' hc hpc hne hleft =>
    have h' : MarksOk { s with proc := proc' } := h.wakes hleft.wakes fun _ => id
    exact h'.set rfl (fun _ _ => id) fun hx => ⟨nofun, (h' p hx).2⟩
  | reap => exact h.set rfl (fun _ _ => id) nofun
  | noWait => exact h
  | waitSleep => exact h.set rfl (fun _ _ => id) fun hx => ⟨nofun, (h _ hx).2⟩
  | @kill pid i hi hpid =>
    refine h.set rfl (fun j _ ht => ?_) fun _ => ⟨?_, if_pos hpid⟩
    · show (if (s.proc j).pid = pid then true else s.hit j) = true
      rw [ht, ite_self]
    · have hused := hf i hpid
      dsimp only
      split
      · exact nofun
      · exact hused
  | @miss pid hnone =>
    refine h.wakes .refl fun j ht => ?_
    show (if (s.proc j).pid = pid then true else s.hit j) = true
    rw [ht, ite_self]
  | fault hc =>
    refine h.set rfl (fun i hi ht => ?_) fun _ => ⟨?_, update_self ..⟩
    · show update s.hit _ true i = true
      rw [update_of_ne hi, ht]
    · dsimp only
      rw [hi.cpu.running _ _ hc]
      exact nofun

theorem withPid_spec {pid : Pid} {i : Fin NPROC} (h : withPid s pid = some i) :
    (s.proc i).pid = pid := by
  have := List.find?_some h
  exact of_decide_eq_true this

/-- A `kill` that returns 0 has found a process, and a process that is marked has faulted or been
named by a `kill` since it got its pid: in every state reached by steps that are fair. -/
theorem kill_reaches_named (acts : List (Act ncpu)) (s : Sys ncpu)
    (hfair : Meets step Fair boot acts) (hrun : run step boot acts = some s) :
    (∀ pid, Fair s (.kill pid) → (kill s pid).2 = 0 →
      ∃ i, (s.proc i).state ≠ .UNUSED ∧ (s.proc i).pid = pid) ∧
      ∀ i, (s.proc i).state ≠ .UNUSED → s.hit i = false → (s.proc i).killed = false := by
  have h : Inv s ∧ MarksOk s :=
    run_invariant (I := fun s => Inv s ∧ MarksOk s)
      (fun s a s' ⟨hi, hm⟩ hf hs => ⟨step_inv hi hs, step_marks hm hi hf hs⟩)
      ⟨⟨boot_tree, boot_cpu, boot_wait⟩, boot_marks⟩ hfair hrun
  refine ⟨fun pid hf hr => ?_, fun i _ hhit => ?_⟩
  · unfold kill at hr
    cases hi : withPid s pid with
    | some i => exact ⟨i, hf i (withPid_spec hi), withPid_spec hi⟩
    | none =>
      rw [hi] at hr
      cases hr
  · cases e : (s.proc i).killed with
    | false => rfl
    | true =>
      rw [(h.2 i e).2] at hhit
      cases hhit

local instance oneKiller : NeZero 1 := ⟨Nat.one_ne_zero⟩

def killChild : List (Act 1) :=
  [.scheduler 0 first, .fork 0, .forkCopies 0, .forkReturns 0, .kill 2]

theorem kill_reaches_named_child : ∃ s : Sys 1,
    run step boot killChild = some s ∧ Fair s (.kill 2) ∧ (kill s 2).2 = 0 ∧
      (∃ i, (s.proc i).state ≠ .UNUSED ∧ (s.proc i).pid = 2) ∧
      ∀ i, (s.proc i).state ≠ .UNUSED → s.hit i = false → (s.proc i).killed = false := by
  have heval : (run step (boot : Sys 1) killChild).map
      (fun s => (decide (Fair s (.kill 2)), (kill s 2).2)) = some (true, 0) := by
    decide +kernel
  have hfair : Meets step Fair (boot : Sys 1) killChild := by decide +kernel
  obtain ⟨s, hrun, hs⟩ := Option.map_eq_some_iff.mp heval
  obtain ⟨hf, hr⟩ := Prod.mk.inj hs
  obtain ⟨hkill, hmarks⟩ := kill_reaches_named killChild s hfair hrun
  exact ⟨s, hrun, of_decide_eq_true hf, hr, hkill 2 (of_decide_eq_true hf) hr, hmarks⟩

/-- `kill(0)` before init forks. -/
def killNobody : List (Act 1) :=
  [.kill 0, .scheduler 0 first, .fork 0, .forkCopies 0, .forkReturns 0]

/-- `kill(0)` returns 0 although no process has pid 0, and the first child of init is born killed,
though nobody has named it. -/
theorem kill_nobody_marks_child : (kill (boot : Sys 1) 0).2 = 0 ∧
    (∀ i, ((boot : Sys 1).proc i).state ≠ .UNUSED → ((boot : Sys 1).proc i).pid ≠ 0) ∧
    ∃ s : Sys 1, run step boot killNobody = some s ∧ (s.proc second).state = .RUNNABLE ∧
      (s.proc second).killed = true ∧ s.hit second = false := by
  have heval : (run step (boot : Sys 1) killNobody).map
      (fun s => ((s.proc second).state, (s.proc second).killed, s.hit second)) =
      some (.RUNNABLE, true, false) := by
    decide +kernel
  obtain ⟨s, hrun, hs⟩ := Option.map_eq_some_iff.mp heval
  simp only [Prod.mk.injEq] at hs
  exact ⟨by decide +kernel, by decide +kernel, s, hrun, hs⟩

end DuckoUnix.Sched
