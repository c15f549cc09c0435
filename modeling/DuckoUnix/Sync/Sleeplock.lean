import DuckoUnix.Sync.Sleep
import Mathlib.Algebra.GroupWithZero.Nat

/-!
# Sleep-locks

`sleeplock.c` on top of `sleep` and `wakeup`, by any number of processes. Every step is a step of the
machine of `sleep` and `wakeup` that keeps to its rule, so no wakeup is lost: the condition that
`acquiresleep` waits for is that the lock is not locked.
-/

namespace DuckoUnix.Sync

open Lib Function

variable {N : ℕ}

/-- `struct sleeplock`. `pid` stands for the process with that pid. -/
structure Sleeplock (N : ℕ) where
  locked : Bool
  pid : Option (Fin N)
  deriving DecidableEq

def unlocked (_ : Fin N) (lk : Sleeplock N) : Bool := !lk.locked

/-- Where a process is in `sleeplock.c`. -/
inductive Doing
  | idle
  /-- in the loop of `acquiresleep`, -/
  | acquiring
  /-- after its stores; -/
  | acquired
  /-- in `releasesleep`, before its stores, -/
  | releasing
  /-- before `wakeup`, -/
  | released
  /-- and before `release`. -/
  | waking
  deriving DecidableEq

/-- `holds p` says that `p` has taken the lock in `acquiresleep` and not given it back since. -/
structure Locks (N : ℕ) where
  m : State N (Sleeplock N)
  doing : Fin N → Doing
  holds : Fin N → Bool

/-- A step of `sleep` and `wakeup` by a process that goes on to `x`. -/
def Locks.by (s : Locks N) (p : Fin N) (x : Doing) (a : Act N (Sleeplock N)) : Option (Locks N) :=
  (step unlocked s.m a).map fun m => { s with m := m, doing := update s.doing p x }

inductive LockAct (N : ℕ)
  | acquiresleep (p : Fin N)
  /-- a test of `lk->locked` in the loop, and what follows it -/
  | test (p : Fin N)
  /-- the `release` at the end of `acquiresleep` -/
  | acquired (p : Fin N)
  | releasesleep (p : Fin N)
  /-- `lk->locked = 0; lk->pid = 0` -/
  | unlock (p : Fin N)
  /-- the call of `wakeup` -/
  | wakeup (p : Fin N)
  /-- the `release` at the end of `releasesleep` -/
  | released (p : Fin N)
  | kill (p q : Fin N)
  /-- a step inside `sleep`, `wakeup` or `kill` -/
  | advance (p : Fin N)

def lockStep (s : Locks N) : LockAct N → Option (Locks N)
  | .acquiresleep p => if s.doing p = .idle then s.by p .acquiring (.enter p) else none
  | .test p =>
    if s.doing p = .acquiring ∧ s.m.pc p = .crit then
      if s.m.data.locked then s.by p .acquiring (.sleep p)
      else (s.by p .acquired (.change p ⟨true, some p⟩)).map fun s =>
        { s with holds := update s.holds p true }
    else none
  | .acquired p => if s.doing p = .acquired then s.by p .idle (.leave p) else none
  | .releasesleep p =>
    if s.doing p = .idle ∧ s.holds p = true then s.by p .releasing (.enter p) else none
  | .unlock p =>
    if s.doing p = .releasing then
      (s.by p .released (.change p ⟨false, none⟩)).map fun s =>
        { s with holds := update s.holds p false }
    else none
  | .wakeup p => if s.doing p = .released then s.by p .waking (.wakeup p) else none
  | .released p => if s.doing p = .waking then s.by p .idle (.leave p) else none
  | .kill p q => if s.doing p = .idle then s.by p .idle (.kill p q) else none
  | .advance p => s.by p (s.doing p) (.advance p)

def initsleeplock : Locks N where
  m := init ⟨false, none⟩
  doing := fun _ => .idle
  holds := fun _ => false

/-! ## The invariant -/

variable {s s' : Locks N} {p q : Fin N}

/-- The process has unlocked the sleep-lock and not woken the channel. -/
def Owes (s : Locks N) (p : Fin N) : Prop :=
  s.doing p = .released ∨ s.m.pc p = .wake1 true ∨ s.m.pc p = .wake2 true

structure LocksOk (s : Locks N) : Prop where
  inv : Inv unlocked s.m
  released : ∀ p, s.doing p = .released → s.m.pc p = .crit
  owes : ∀ p, s.m.lk = some p → s.m.owes = true → Owes s p
  holds : ∀ p, s.holds p = true → s.m.data = ⟨true, some p⟩
  releasing : ∀ p, s.doing p = .releasing → s.holds p = true

theorem initsleeplock_ok : LocksOk (initsleeplock : Locks N) where
  inv := init_inv _
  released := nofun
  owes := nofun
  holds := nofun
  releasing := nofun

/-- At most one process holds the lock. -/
theorem LocksOk.unique (h : LocksOk s) (hp : s.holds p = true) (hq : s.holds q = true) : p = q := by
  have := h.holds p hp
  rw [h.holds q hq] at this
  cases this
  rfl

/-- A step of `p` that keeps to the rule, when `p` still owes a wakeup afterwards if it has made the
condition true. -/
theorem LocksOk.by (h : LocksOk s) {m : State N (Sleeplock N)} {x : Doing} {holds : Fin N → Bool}
    {a : Act N (Sleeplock N)} (hs : step unlocked s.m a = some m) (hr : Rule unlocked s.m a)
    (hpc : ∀ q, q ≠ p → m.pc q = s.m.pc q) (hreleased : x = .released → m.pc p = .crit)
    (hself : m.lk = some p → m.owes = true →
      x = .released ∨ m.pc p = .wake1 true ∨ m.pc p = .wake2 true)
    (hother : ∀ q, q ≠ p → m.lk = some q → m.owes = true → s.m.lk = some q ∧ s.m.owes = true)
    (hholds : ∀ q, holds q = true → m.data = ⟨true, some q⟩)
    (hreleasing : ∀ q, q ≠ p → s.doing q = .releasing → holds q = true)
    (hreleasing' : x = .releasing → holds p = true) :
    LocksOk { m := m, doing := update s.doing p x, holds := holds } where
  inv := step_inv h.inv hr hs
  released := by
    intro q hq
    dsimp only at hq ⊢
    by_cases e : q = p
    · rw [e, update_self] at hq
      rw [e, hreleased hq]
    · rw [update_of_ne e] at hq
      rw [hpc q e, h.released q hq]
  owes := by
    intro q hq ho
    unfold Owes
    dsimp only
    by_cases e : q = p
    · rw [e, update_self]
      exact hself (e ▸ hq) ho
    · obtain ⟨hq', ho'⟩ := hother q e hq ho
      rw [update_of_ne e, hpc q e]
      exact h.owes q hq' ho'
  holds := hholds
  releasing := by
    intro q hq
    dsimp only at hq
    by_cases e : q = p
    · rw [e, update_self] at hq
      rw [e]
      exact hreleasing' hq
    · rw [update_of_ne e] at hq
      exact hreleasing q e hq

/-- The same when `p` only goes to the place `y` of `sleep` and `wakeup`. -/
theorem LocksOk.goes (h : LocksOk s) {m : State N (Sleeplock N)} {x : Doing} {y : Pc N}
    {a : Act N (Sleeplock N)} (hs : step unlocked s.m a = some m) (hr : Rule unlocked s.m a)
    (hpc : m.pc = update s.m.pc p y) (hdata : m.data = s.m.data) (hx : x ≠ .released)
    (hself : m.lk = some p → m.owes = true → y = .wake1 true ∨ y = .wake2 true)
    (hother : ∀ q, q ≠ p → m.lk = some q → m.owes = true → s.m.lk = some q ∧ s.m.owes = true)
    (hx' : x = .releasing → s.holds p = true) :
    LocksOk { s with m := m, doing := update s.doing p x } := by
  refine h.by hs hr (fun q hq => ?_) (fun e => absurd e hx) (fun hlk ho => .inr ?_) hother ?_
    (fun q _ => h.releasing q) hx'
  · rw [hpc, update_of_ne hq]
  · rw [hpc, update_self]
    exact hself hlk ho
  · rw [hdata]
    exact h.holds

theorem LocksOk.held (h : LocksOk s) (hp : (s.m.pc p).lk = true) : s.m.lk = some p :=
  (h.inv.lk p).mpr hp

/-- Only a process that has unlocked the sleep-lock owes a wakeup. -/
theorem LocksOk.settled (h : LocksOk s) (hp : s.m.pc p = .crit) (hd : s.doing p ≠ .released) :
    s.m.owes = false := by
  cases e : s.m.owes with
  | false => rfl
  | true =>
    rcases h.owes p (h.held (by rw [hp]; rfl)) e with ho | ho | ho
    · exact absurd ho hd
    · rw [hp] at ho
      cases ho
    · rw [hp] at ho
      cases ho

theorem LocksOk.enter (h : LocksOk s) {x : Doing} (hx : x ≠ .released)
    (hx' : x = .releasing → s.holds p = true) (hs : s.by p x (.enter p) = some s') :
    LocksOk s' := by
  obtain ⟨m, hm, rfl⟩ := Option.map_eq_some_iff.mp hs
  have hm' := hm
  simp only [step, acquireLk, Option.ite_none_right_eq_some] at hm'
  obtain ⟨hp, hfree, hm'⟩ := hm'
  cases hm'
  have hsettled : ¬ s.m.owes = true := fun ho => h.inv.owes ho hfree
  exact h.goes hm trivial rfl rfl hx (fun _ ho => absurd ho hsettled)
    (fun q _ _ ho => absurd ho hsettled) hx'

theorem LocksOk.leave (h : LocksOk s) (hdoing : s.doing p ≠ .released)
    (hs : s.by p .idle (.leave p) = some s') : LocksOk s' := by
  obtain ⟨m, hm, rfl⟩ := Option.map_eq_some_iff.mp hs
  have hm' := hm
  simp only [step, Option.ite_none_right_eq_some] at hm'
  obtain ⟨hp, hm'⟩ := hm'
  cases hm'
  exact h.goes hm (h.settled hp hdoing) rfl rfl (by decide) (fun hlk => by cases hlk)
    (fun _ _ hlk => by cases hlk) (fun e => by cases e)

theorem LocksOk.sleep (h : LocksOk s) (hdoing : s.doing p = .acquiring)
    (hlocked : s.m.data.locked = true) (hs : s.by p .acquiring (.sleep p) = some s') :
    LocksOk s' := by
  obtain ⟨m, hm, rfl⟩ := Option.map_eq_some_iff.mp hs
  have hm' := hm
  simp only [step, Option.ite_none_right_eq_some] at hm'
  obtain ⟨hp, hm'⟩ := hm'
  cases hm'
  have hsettled := h.settled hp (by rw [hdoing]; decide)
  have hcond : unlocked p s.m.data = false := by
    unfold unlocked
    rw [hlocked]
    rfl
  refine h.goes hm ⟨hsettled, hcond⟩ rfl rfl (by decide) (fun _ ho => ?_)
    (fun q _ hq ho => ⟨hq, ho⟩) (fun e => by cases e)
  rw [show s.m.owes = true from ho] at hsettled
  cases hsettled

theorem LocksOk.take (h : LocksOk s) (hdoing : s.doing p = .acquiring)
    (hfree : s.m.data.locked = false) (hs : s.by p .acquired (.change p ⟨true, some p⟩) = some s') :
    LocksOk { s' with holds := update s'.holds p true } := by
  obtain ⟨m, hm, rfl⟩ := Option.map_eq_some_iff.mp hs
  have hm' := hm
  simp only [step, Option.ite_none_right_eq_some] at hm'
  obtain ⟨hp, hm'⟩ := hm'
  cases hm'
  have hsettled := h.settled hp (by rw [hdoing]; decide)
  have hnone : ∀ q, s.holds q = true → False := by
    intro q hq
    rw [h.holds q hq] at hfree
    cases hfree
  have howes : (s.m.owes || decide (∃ q : Fin N, unlocked q ⟨true, some p⟩ = true ∧
      unlocked q s.m.data = false)) = false := by
    rw [hsettled]
    simp [unlocked]
  refine h.by hm trivial (fun _ _ => rfl) (fun e => by cases e) (fun _ ho => ?_)
    (fun q _ _ ho => ?_) (fun q hq => ?_) (fun q hq hr => ?_) (fun e => by cases e)
  · rw [howes] at ho
    cases ho
  · rw [howes] at ho
    cases ho
  · dsimp only at hq ⊢
    by_cases e : q = p
    · rw [e]
    · rw [update_of_ne e] at hq
      exact (hnone q hq).elim
  · exact (hnone q (h.releasing q hr)).elim

theorem LocksOk.unlock (h : LocksOk s) (hdoing : s.doing p = .releasing)
    (hs : s.by p .released (.change p ⟨false, none⟩) = some s') :
    LocksOk { s' with holds := update s'.holds p false } := by
  obtain ⟨m, hm, rfl⟩ := Option.map_eq_some_iff.mp hs
  have hm' := hm
  simp only [step, Option.ite_none_right_eq_some] at hm'
  obtain ⟨hp, hm'⟩ := hm'
  cases hm'
  have hholds := h.releasing p hdoing
  have hheld := h.held (p := p) (by rw [hp]; rfl)
  refine h.by hm trivial (fun _ _ => rfl) (fun _ => hp) (fun _ _ => .inl rfl) (fun q hq hlk => ?_)
    (fun q hq => ?_) (fun q hq hr => ?_) (fun e => by cases e)
  · rw [show s.m.lk = some q from hlk] at hheld
    exact absurd (Option.some.inj hheld) hq
  · dsimp only at hq
    by_cases e : q = p
    · rw [e, update_self] at hq
      cases hq
    · rw [update_of_ne e] at hq
      exact absurd (h.unique hq hholds) e
  · exact absurd (h.unique (h.releasing q hr) hholds) hq

theorem LocksOk.wakeup (h : LocksOk s) (hdoing : s.doing p = .released)
    (hs : s.by p .waking (.wakeup p) = some s') : LocksOk s' := by
  obtain ⟨m, hm, rfl⟩ := Option.map_eq_some_iff.mp hs
  have hm' := hm
  simp only [step, h.released p hdoing] at hm'
  cases hm'
  exact h.goes hm trivial rfl rfl (by decide) (fun _ _ => .inl rfl) (fun q _ hq ho => ⟨hq, ho⟩)
    (fun e => by cases e)

theorem LocksOk.kill (h : LocksOk s) (hs : s.by p .idle (.kill p q) = some s') : LocksOk s' := by
  obtain ⟨m, hm, rfl⟩ := Option.map_eq_some_iff.mp hs
  have hm' := hm
  simp only [step, Option.ite_none_right_eq_some] at hm'
  obtain ⟨hp, hm'⟩ := hm'
  cases hm'
  refine h.goes hm trivial rfl rfl (by decide) (fun hlk => ?_) (fun q _ hq ho => ⟨hq, ho⟩)
    (fun e => by cases e)
  have := (h.inv.lk p).mp hlk
  rw [hp] at this
  cases this

/-- What a step in `sleep`, `wakeup` or `kill` does to the rest of the state. -/
structure Advances (m m' : State N (Sleeplock N)) (p : Fin N) : Prop where
  others : ∀ q, q ≠ p → m'.pc q = m.pc q
  data : m'.data = m.data
  lk : ∀ q, m'.lk = some q → m.lk = some q ∨ q = p ∧ m.lk = none
  owes : m'.owes = true → m.owes = true ∧ m.pc p ≠ .wake2 true
  waking : m.pc p = .wake1 true → m'.pc p = .wake2 true
  moves : m.pc p ≠ .crit

theorem advances_goto {m m' : State N (Sleeplock N)} {x : Pc N}
    (hpc : m'.pc = update m.pc p x) (hdata : m'.data = m.data)
    (hlk : m'.lk = m.lk ∨ m'.lk = none ∨ m'.lk = some p ∧ m.lk = none)
    (howes : m'.owes = true → m.owes = true ∧ m.pc p ≠ .wake2 true)
    (hwaking : m.pc p = .wake1 true → x = .wake2 true) (hcrit : m.pc p ≠ .crit) :
    Advances m m' p where
  others := fun q hq => by rw [hpc, update_of_ne hq]
  data := hdata
  lk := by
    intro q hq
    rcases hlk with e | e | ⟨e, e'⟩ <;> rw [e] at hq
    · exact .inl hq
    · cases hq
    · exact .inr ⟨(Option.some.inj hq).symm, e'⟩
  owes := howes
  waking := fun e => by rw [hpc, update_self, hwaking e]
  moves := hcrit

theorem advance_advances {m m' : State N (Sleeplock N)} (hs : advance m p = some m') :
    Advances m m' p := by
  unfold advance at hs
  cases hp : m.pc p <;> rw [hp] at hs <;> dsimp only at hs <;>
    simp only [acquirePtable, acquireLk, releasePtable, releaseLk, Option.ite_none_right_eq_some,
      Option.ite_none_left_eq_some, Option.some.injEq, reduceCtorEq] at hs
  case sleep1 | wake1 | kill1 =>
    obtain ⟨-, rfl⟩ := hs
    exact advances_goto rfl rfl (.inl rfl) (fun ho => ⟨ho, by simp [hp]⟩) (by simp [hp]) (by simp [hp])
  case sleep2 =>
    subst hs
    exact advances_goto rfl rfl (.inr (.inl rfl)) (fun ho => ⟨ho, by simp [hp]⟩) (by simp [hp])
      (by simp [hp])
  case asleep =>
    obtain ⟨-, -, rfl⟩ := hs
    exact advances_goto rfl rfl (.inl rfl) (fun ho => ⟨ho, by simp [hp]⟩) (by simp [hp]) (by simp [hp])
  case relock =>
    obtain ⟨hfree, rfl⟩ := hs
    exact advances_goto rfl rfl (.inr (.inr ⟨rfl, hfree⟩)) (fun ho => ⟨ho, by simp [hp]⟩)
      (by simp [hp]) (by simp [hp])
  case wake2 held =>
    subst hs
    refine advances_goto rfl rfl (.inl rfl) (fun ho => ?_) (by simp [hp]) (by simp [hp])
    cases held with
    | true => cases ho
    | false => exact ⟨ho, by simp [hp]⟩
  case sleep3 | sched | back | wake3 | kill2 | kill3 =>
    subst hs
    exact advances_goto rfl rfl (.inl rfl) (fun ho => ⟨ho, by simp [hp]⟩) (by simp [hp]) (by simp [hp])

theorem LocksOk.advance (h : LocksOk s) (hs : s.by p (s.doing p) (.advance p) = some s') :
    LocksOk s' := by
  obtain ⟨m, hm, rfl⟩ := Option.map_eq_some_iff.mp hs
  have ha : Advances s.m m p := advance_advances hm
  have hdoing : s.doing p ≠ .released := fun e => ha.moves (h.released p e)
  refine h.by hm trivial ha.others (fun e => absurd e hdoing) (fun hlk ho => ?_)
    (fun q hq hlk ho => ?_) ?_ (fun q _ => h.releasing q) (h.releasing p)
  · obtain ⟨ho, hwake⟩ := ha.owes ho
    have hlk' : s.m.lk = some p :=
      (ha.lk p hlk).resolve_right fun e => h.inv.owes ho e.2
    have hpc := ((h.owes p hlk' ho).resolve_left hdoing).resolve_right hwake
    exact .inr (.inr (ha.waking hpc))
  · obtain ⟨ho, -⟩ := ha.owes ho
    exact ⟨(ha.lk q hlk).resolve_right fun e => hq e.1, ho⟩
  · rw [ha.data]
    exact h.holds

theorem lockStep_ok {a : LockAct N} (h : LocksOk s) (hs : lockStep s a = some s') : LocksOk s' := by
  cases a with
  | acquiresleep p =>
    simp only [lockStep, Option.ite_none_right_eq_some] at hs
    exact h.enter (x := .acquiring) nofun nofun hs.2
  | test p =>
    simp only [lockStep, Option.ite_none_right_eq_some] at hs
    obtain ⟨⟨hdoing, -⟩, hs⟩ := hs
    split at hs
    · rename_i hlocked
      exact h.sleep hdoing hlocked hs
    · rename_i hfree
      obtain ⟨t, ht, rfl⟩ := Option.map_eq_some_iff.mp hs
      exact h.take hdoing (Bool.eq_false_iff.mpr hfree) ht
  | acquired p =>
    simp only [lockStep, Option.ite_none_right_eq_some] at hs
    exact h.leave (by rw [hs.1]; exact nofun) hs.2
  | releasesleep p =>
    simp only [lockStep, Option.ite_none_right_eq_some] at hs
    exact h.enter (x := .releasing) nofun (fun _ => hs.1.2) hs.2
  | unlock p =>
    simp only [lockStep, Option.ite_none_right_eq_some] at hs
    obtain ⟨t, ht, rfl⟩ := Option.map_eq_some_iff.mp hs.2
    exact h.unlock hs.1 ht
  | wakeup p =>
    simp only [lockStep, Option.ite_none_right_eq_some] at hs
    exact h.wakeup hs.1 hs.2
  | released p =>
    simp only [lockStep, Option.ite_none_right_eq_some] at hs
    exact h.leave (by rw [hs.1]; exact nofun) hs.2
  | kill p q =>
    simp only [lockStep, Option.ite_none_right_eq_some] at hs
    exact h.kill hs.2
  | advance p => exact h.advance hs

/-! ## No lost wakeups -/

/-- Callers that keep to the rule lose no wakeups: with both locks free, nobody sleeps with its
condition true. `sleeplock.c` keeps to it: at most one process holds a sleep-lock, and nobody sleeps
on one that is not locked. -/
theorem no_lost_wakeup_and_exclusion :
    (∀ (N : ℕ) (D : Type) (cond : Fin N → D → Bool) (d : D) (acts : List (Act N D))
      (s : State N D), Meets (step cond) (Rule cond) (init d) acts →
      run (step cond) (init d) acts = some s → s.lk = none → s.ptable = none →
      ∀ q, s.sleeping q = true → cond q s.data = false) ∧
    ∀ (N : ℕ) (acts : List (LockAct N)) (s : Locks N), run lockStep initsleeplock acts = some s →
      (∀ p q, s.holds p = true → s.holds q = true → p = q) ∧
      (s.m.lk = none → s.m.ptable = none → s.m.data.locked = false →
        ∀ q, s.m.sleeping q = false) := by
  refine ⟨fun N D cond d acts s hrule hrun hlk _ q hq => ?_, fun N acts s hrun => ?_⟩
  · have h : Inv cond s :=
      run_invariant (fun s a s' h hr hs => step_inv h hr hs) (init_inv d) hrule hrun
    exact h.no_lost hlk hq
  · have h : LocksOk s :=
      run_invariant' (fun s a s' h hs => lockStep_ok h hs) initsleeplock_ok hrun
    refine ⟨fun p q => h.unique, fun hlk _ hfree q => ?_⟩
    cases e : s.m.sleeping q with
    | false => rfl
    | true =>
      have := h.inv.no_lost hlk e
      unfold unlocked at this
      rw [hfree] at this
      cases this

local instance twoProcesses : NeZero 2 := ⟨Nat.succ_ne_zero 1⟩

/-- Process 0 takes the lock, and process 1 goes to sleep on it. -/
def contended : List (LockAct 2) :=
  [.acquiresleep 0, .test 0, .acquired 0, .acquiresleep 1, .test 1, .advance 1, .advance 1,
    .advance 1, .advance 1]

theorem no_lost_wakeup_and_exclusion_contended : ∃ s : Locks 2,
    run lockStep initsleeplock contended = some s ∧ s.m.sleeping 1 = true ∧ s.holds 0 = true ∧
      (∀ p, s.holds p = true → p = 0) ∧ s.m.data.locked = true := by
  have heval : (run lockStep (initsleeplock : Locks 2) contended).map
      (fun s => (s.m.sleeping 1, s.holds 0, s.m.lk, s.m.ptable)) = some (true, true, none, none) := by
    decide
  obtain ⟨s, hrun, hs⟩ := Option.map_eq_some_iff.mp heval
  simp only [Prod.mk.injEq] at hs
  obtain ⟨hsleep, hholds, hlk, hpt⟩ := hs
  obtain ⟨hone, hawake⟩ := no_lost_wakeup_and_exclusion.2 2 contended s hrun
  refine ⟨s, hrun, hsleep, hholds, fun p hp => hone p 0 hp hholds, ?_⟩
  cases e : s.m.data.locked with
  | true => rfl
  | false =>
    rw [hawake hlk hpt e 1] at hsleep
    cases hsleep

end DuckoUnix.Sync
