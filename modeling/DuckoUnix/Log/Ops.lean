import DuckoUnix.Lib.Run
import DuckoUnix.Param
import Mathlib.Data.Fintype.Basic

/-!
# The log: operations and group commit

The control state of `log.c`: `begin_op`, `log_write`, `end_op` and `commit` as they act on
`struct log`, run by `N` processes in any order. Each section under `log.lock` is one step; so is
each round of the loops of `commit`, which runs without the lock, and the two checks at the head
of `log_write`, which are made before the lock is taken.

Two history variables, `nextOp` and `events`, number the operations and record, in order, every
`log_write` and every header of a committed transaction. No code reads them.
-/

namespace DuckoUnix.LogOps

open Lib Function

/-- `struct log`. `log.lh` is the list of its `n` block numbers. -/
structure Log where
  start : ℕ
  size : ℕ
  outstanding : ℤ
  committing : Bool
  block : List ℕ

/-- The ways a step can stop the kernel. -/
inductive Panic
  /-- `panic("too big a transaction")` -/
  | tooBig
  /-- `panic("log_write outside of trans")` -/
  | outsideTrans
  /-- `panic("log.committing")` -/
  | committing
  /-- a store past the end of `log.lh.block`, which the source does not check -/
  | outOfBounds
  deriving DecidableEq

/-- Where a process stands in the code of `log.c`. -/
inductive PState
  | idle
  /-- in `begin_op`, `SLEEPING` on `&log` or woken from it -/
  | begin (asleep : Bool)
  /-- between `begin_op` and `end_op`: operation number `op`, which has logged `logged` -/
  | op (op : ℕ) (logged : List ℕ)
  /-- in `log_write` of block `b`, the checks passed, the lock not yet taken -/
  | checked (op : ℕ) (logged : List ℕ) (b : ℕ)
  /-- in `write_log`, or about to write the header when `tail` has reached `n` -/
  | writeLog (tail : ℕ)
  /-- in `install_trans`, or about to clear `n` when `tail` has reached it -/
  | install (tail : ℕ)
  /-- `n` cleared, the empty header not yet written -/
  | clearHead
  /-- back from `commit`, `committing` not yet cleared -/
  | done
  deriving DecidableEq

inductive Event
  /-- operation `op` logged block `b` -/
  | logged (op b : ℕ)
  /-- a transaction committed with this header -/
  | commit (header : List ℕ)
  deriving DecidableEq

structure State (N : ℕ) where
  log : Log
  procs : Fin N → PState
  panic : Option Panic
  nextOp : ℕ
  events : List Event

variable {N : ℕ}

/-- `begin_op` has to wait: a commit is running, or this op might exhaust the log. -/
def Log.waits (l : Log) : Prop :=
  l.committing = true ∨
    (LOGSIZE : ℤ) < l.block.length + (l.outstanding + 1) * MAXOPBLOCKS

instance (l : Log) : Decidable l.waits := by unfold Log.waits; infer_instance

def wakeup (procs : Fin N → PState) : Fin N → PState := fun q =>
  if procs q = .begin true then .begin false else procs q

/-- One round of the loop of `begin_op`. -/
def beginOp (s : State N) (p : Fin N) : State N :=
  if s.log.waits then { s with procs := update s.procs p (.begin true) }
  else
    { s with
      log := { s.log with outstanding := s.log.outstanding + 1 }
      procs := update s.procs p (.op s.nextOp [])
      nextOp := s.nextOp + 1 }

/-- The two checks of `log_write`. -/
def logCheck (s : State N) (p : Fin N) (op : ℕ) (logged : List ℕ) (b : ℕ) : State N :=
  if LOGSIZE ≤ s.log.block.length ∨ s.log.size ≤ s.log.block.length + 1 then
    { s with panic := some .tooBig }
  else if s.log.outstanding < 1 then { s with panic := some .outsideTrans }
  else { s with procs := update s.procs p (.checked op logged b) }

/-- Log absorption: a block already in the header is not entered again. -/
def absorb (block : List ℕ) (b : ℕ) : List ℕ := if b ∈ block then block else block ++ [b]

def logWrite (s : State N) (p : Fin N) (op : ℕ) (logged : List ℕ) (b : ℕ) : State N :=
  if b ∉ s.log.block ∧ LOGSIZE ≤ s.log.block.length then { s with panic := some .outOfBounds }
  else
    { s with
      log := { s.log with block := absorb s.log.block b }
      procs := update s.procs p (.op op (logged ++ [b]))
      events := s.events ++ [.logged op b] }

/-- The first section of `end_op`. With `n = 0` the call of `commit` does nothing. -/
def endOp (s : State N) (p : Fin N) : State N :=
  let out := s.log.outstanding - 1
  if s.log.committing then { s with panic := some .committing }
  else if out = 0 then
    { s with
      log := { s.log with outstanding := out, committing := true }
      procs := update s.procs p (if 0 < s.log.block.length then .writeLog 0 else .done) }
  else
    { s with
      log := { s.log with outstanding := out }
      procs := update (wakeup s.procs) p .idle }

/-- The next step of the process that commits. -/
def commit (s : State N) (p : Fin N) : Option (State N) :=
  match s.procs p with
  | .writeLog tail =>
    if tail < s.log.block.length then
      some { s with procs := update s.procs p (.writeLog (tail + 1)) }
    else
      some { s with
        procs := update s.procs p (.install 0)
        events := s.events ++ [.commit s.log.block] }
  | .install tail =>
    if tail < s.log.block.length then
      some { s with procs := update s.procs p (.install (tail + 1)) }
    else
      some { s with
        log := { s.log with block := [] }
        procs := update s.procs p .clearHead }
  | .clearHead => some { s with procs := update s.procs p .done }
  | .done =>
    some { s with
      log := { s.log with committing := false }
      procs := update (wakeup s.procs) p .idle }
  | _ => none

inductive Act (N : ℕ)
  /-- `p` calls `begin_op`, or goes round its loop after a wakeup -/
  | beginOp (p : Fin N)
  /-- `p` calls `log_write` on block `b` and makes the checks -/
  | logCheck (p : Fin N) (b : ℕ)
  /-- `p` runs the section of `log_write` under the lock -/
  | logWrite (p : Fin N)
  /-- `p` calls `end_op` -/
  | endOp (p : Fin N)
  /-- `p` takes the next step of `commit` -/
  | commit (p : Fin N)
  /-- `kill` ends a sleep of `p` -/
  | kill (p : Fin N)

/-- One step. A kernel that panicked stands still. -/
def step (s : State N) (a : Act N) : Option (State N) :=
  if s.panic.isSome then none
  else
    match a with
    | .beginOp p =>
      match s.procs p with
      | .idle => some (beginOp s p)
      | .begin false => some (beginOp s p)
      | _ => none
    | .logCheck p b =>
      match s.procs p with
      | .op o logged => some (logCheck s p o logged b)
      | _ => none
    | .logWrite p =>
      match s.procs p with
      | .checked o logged b => some (logWrite s p o logged b)
      | _ => none
    | .endOp p =>
      match s.procs p with
      | .op _ _ => some (endOp s p)
      | _ => none
    | .commit p => commit s p
    | .kill p =>
      match s.procs p with
      | .begin true => some { s with procs := update s.procs p (.begin false) }
      | _ => none

/-- The log after `initlog`, with the size `mkfs` gives it; nothing logged, no operation begun. -/
def init (N start : ℕ) : State N where
  log := ⟨start, nlog, 0, false, []⟩
  procs := fun _ => .idle
  panic := none
  nextOp := 0
  events := []

/-! ## What a step can be -/

/-- Between `begin_op` and `end_op`. -/
def PState.inOp : PState → Bool
  | .op _ _ | .checked _ _ _ => true
  | _ => false

/-- Inside `commit`, or just back from it. -/
def PState.inCommit : PState → Bool
  | .writeLog _ | .install _ | .clearHead | .done => true
  | _ => false

theorem wakeup_cases (procs : Fin N → PState) (q : Fin N) :
    wakeup procs q = procs q ∨ (procs q = .begin true ∧ wakeup procs q = .begin false) := by
  unfold wakeup
  split_ifs with h
  · exact Or.inr ⟨h, rfl⟩
  · exact Or.inl rfl

theorem apply_wakeup {β : Type*} {f : PState → β} (hf : f (.begin false) = f (.begin true))
    (procs : Fin N → PState) (q : Fin N) : f (wakeup procs q) = f (procs q) := by
  rcases wakeup_cases procs q with hq | ⟨hq, hq'⟩
  · rw [hq]
  · rw [hq', hq, hf]

@[simp] theorem inOp_wakeup (procs : Fin N → PState) (q : Fin N) :
    (wakeup procs q).inOp = (procs q).inOp := apply_wakeup rfl procs q

@[simp] theorem inCommit_wakeup (procs : Fin N → PState) (q : Fin N) :
    (wakeup procs q).inCommit = (procs q).inCommit := apply_wakeup rfl procs q

/-- A process that moves without a change of `f` changes `f` nowhere. -/
theorem apply_update {β : Type*} {f : PState → β} {procs : Fin N → PState} {p : Fin N} {x : PState}
    (h : f x = f (procs p)) (q : Fin N) : f (update procs p x q) = f (procs q) := by
  by_cases e : q = p
  · rw [e, update_self, h]
  · rw [update_of_ne e]

/-- What holds of every process, and of the place one of them moves to, holds of every process
afterwards. -/
theorem forall_update {P : PState → Prop} {procs : Fin N → PState} {p : Fin N} {x : PState}
    (hx : P x) (h : ∀ q, P (procs q)) (q : Fin N) : P (update procs p x q) := by
  by_cases e : q = p
  · rw [e, update_self]; exact hx
  · rw [update_of_ne e]; exact h q

/-- Every step, with what it needs and the state it leaves. -/
inductive Step (s : State N) : Act N → State N → Prop
  | wait {p} (hp : s.procs p = .idle ∨ s.procs p = .begin false) (hw : s.log.waits) :
      Step s (.beginOp p) { s with procs := update s.procs p (.begin true) }
  | enter {p} (hp : s.procs p = .idle ∨ s.procs p = .begin false) (hw : ¬ s.log.waits) :
      Step s (.beginOp p) { s with
        log := { s.log with outstanding := s.log.outstanding + 1 }
        procs := update s.procs p (.op s.nextOp [])
        nextOp := s.nextOp + 1 }
  | tooBig {p o logged b} (hp : s.procs p = .op o logged)
      (hb : LOGSIZE ≤ s.log.block.length ∨ s.log.size ≤ s.log.block.length + 1) :
      Step s (.logCheck p b) { s with panic := some .tooBig }
  | outside {p o logged b} (hp : s.procs p = .op o logged) (ho : s.log.outstanding < 1) :
      Step s (.logCheck p b) { s with panic := some .outsideTrans }
  | check {p o logged b} (hp : s.procs p = .op o logged)
      (hb : ¬ (LOGSIZE ≤ s.log.block.length ∨ s.log.size ≤ s.log.block.length + 1)) :
      Step s (.logCheck p b) { s with procs := update s.procs p (.checked o logged b) }
  | outOfBounds {p o logged b} (hp : s.procs p = .checked o logged b) :
      Step s (.logWrite p) { s with panic := some .outOfBounds }
  | write {p o logged b} (hp : s.procs p = .checked o logged b) :
      Step s (.logWrite p) { s with
        log := { s.log with block := absorb s.log.block b }
        procs := update s.procs p (.op o (logged ++ [b]))
        events := s.events ++ [.logged o b] }
  | nested {p o logged} (hp : s.procs p = .op o logged) (hc : s.log.committing = true) :
      Step s (.endOp p) { s with panic := some .committing }
  | last {p o logged} (hp : s.procs p = .op o logged) (hc : s.log.committing = false)
      (ho : s.log.outstanding - 1 = 0) :
      Step s (.endOp p) { s with
        log := { s.log with outstanding := s.log.outstanding - 1, committing := true }
        procs := update s.procs p
          (if 0 < s.log.block.length then .writeLog 0 else .done) }
  | leave {p o logged} (hp : s.procs p = .op o logged) (hc : s.log.committing = false)
      (ho : s.log.outstanding - 1 ≠ 0) :
      Step s (.endOp p) { s with
        log := { s.log with outstanding := s.log.outstanding - 1 }
        procs := update (wakeup s.procs) p .idle }
  | writeLog {p tail} (hp : s.procs p = .writeLog tail) (ht : tail < s.log.block.length) :
      Step s (.commit p) { s with procs := update s.procs p (.writeLog (tail + 1)) }
  | head {p tail} (hp : s.procs p = .writeLog tail) (ht : ¬ tail < s.log.block.length) :
      Step s (.commit p) { s with
        procs := update s.procs p (.install 0)
        events := s.events ++ [.commit s.log.block] }
  | install {p tail} (hp : s.procs p = .install tail) (ht : tail < s.log.block.length) :
      Step s (.commit p) { s with procs := update s.procs p (.install (tail + 1)) }
  | clear {p tail} (hp : s.procs p = .install tail) (ht : ¬ tail < s.log.block.length) :
      Step s (.commit p) { s with
        log := { s.log with block := [] }
        procs := update s.procs p .clearHead }
  | clearHead {p} (hp : s.procs p = .clearHead) :
      Step s (.commit p) { s with procs := update s.procs p .done }
  | done {p} (hp : s.procs p = .done) :
      Step s (.commit p) { s with
        log := { s.log with committing := false }
        procs := update (wakeup s.procs) p .idle }
  | kill {p} (hp : s.procs p = .begin true) :
      Step s (.kill p) { s with procs := update s.procs p (.begin false) }

theorem step_beginOp {s : State N} {p : Fin N}
    (hp : s.procs p = .idle ∨ s.procs p = .begin false) : Step s (.beginOp p) (beginOp s p) := by
  unfold beginOp
  split_ifs with hw
  · exact .wait hp hw
  · exact .enter hp hw

theorem step_commit {s s' : State N} {p : Fin N} (h : commit s p = some s') :
    Step s (.commit p) s' := by
  unfold commit at h
  cases hp : s.procs p with
  | writeLog tail =>
    simp only [hp] at h
    split_ifs at h with ht <;> cases h
    · exact .writeLog hp ht
    · exact .head hp ht
  | install tail =>
    simp only [hp] at h
    split_ifs at h with ht <;> cases h
    · exact .install hp ht
    · exact .clear hp ht
  | clearHead => simp only [hp] at h; cases h; exact .clearHead hp
  | done => simp only [hp] at h; cases h; exact .done hp
  | idle => simp only [hp] at h; cases h
  | begin asleep => simp only [hp] at h; cases h
  | op o logged => simp only [hp] at h; cases h
  | checked o logged b => simp only [hp] at h; cases h

/-- The step function takes only these steps, and only when the kernel has not panicked. -/
theorem step_of_step {s s' : State N} {a : Act N} (h : step s a = some s') :
    s.panic = none ∧ Step s a s' := by
  unfold step at h
  split_ifs at h with hpanic
  refine ⟨by simpa using hpanic, ?_⟩
  cases a with
  | beginOp p =>
    simp only at h
    split at h
    · next hp => cases h; exact step_beginOp (Or.inl hp)
    · next hp => cases h; exact step_beginOp (Or.inr hp)
    · cases h
  | logCheck p b =>
    simp only at h
    split at h
    · next hp =>
      cases h
      unfold logCheck
      split_ifs with hb ho
      · exact .tooBig hp hb
      · exact .outside hp ho
      · exact .check hp hb
    · cases h
  | logWrite p =>
    simp only at h
    split at h
    · next hp =>
      cases h
      unfold logWrite
      split_ifs
      · exact .outOfBounds hp
      · exact .write hp
    · cases h
  | endOp p =>
    simp only at h
    split at h
    · next hp =>
      cases h
      unfold endOp
      simp only
      by_cases hc : s.log.committing = true
      · rw [if_pos hc]
        exact .nested hp hc
      · rw [if_neg hc]
        by_cases ho : s.log.outstanding - 1 = 0
        · rw [if_pos ho]
          exact .last hp (by simpa using hc) ho
        · rw [if_neg ho]
          exact .leave hp (by simpa using hc) ho
    · cases h
  | commit p => exact step_commit h
  | kill p =>
    simp only at h
    split at h
    · next hp => cases h; exact .kill hp
    · cases h

end DuckoUnix.LogOps
