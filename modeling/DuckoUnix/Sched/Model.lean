import DuckoUnix.Param
import DuckoUnix.Lib.Run
import Mathlib.Data.List.FinRange

/-!
# The process table

`proc.c` on any number of processors. A step is a section under `ptable.lock`, or one of the stores
that `fork` makes to the new entry without the lock. The code after `sched` that a process runs
when it comes back belongs to the step that it takes next: a process that wakes up in `wait` scans
the table again by another step `wait`.

A step by processor `c` is one of its current process. A step that would panic cannot be taken.
-/

namespace DuckoUnix.Sched

open Lib Function

inductive Procstate
  | UNUSED
  | EMBRYO
  | SLEEPING
  | RUNNABLE
  | RUNNING
  | ZOMBIE
  deriving DecidableEq

/-- What a process sleeps on: nothing, the entry of a process (in `wait`), or something else. -/
inductive Chan
  | none
  | proc (p : Fin NPROC)
  | other (n : ℕ)
  deriving DecidableEq

abbrev Pid := BitVec 32

/-- `struct proc` -/
structure Proc where
  state : Procstate
  pid : Pid
  parent : Option (Fin NPROC)
  chan : Chan
  killed : Bool
  deriving DecidableEq

/-- Where a process is, between its steps. -/
inductive Pc
  | other
  /-- in `fork`, after `allocproc` has taken the entry `np` -/
  | forking (np : Fin NPROC)
  /-- in `fork`, after the new process has its parent -/
  | forked (np : Fin NPROC)
  /-- in `wait`, after a `sleep` -/
  | waiting
  deriving DecidableEq

/-- The process table and the processors.

`hit p` says that the process has faulted, or that a `kill` with its pid has been executed, since
`allocproc` gave it its pid; `allocs` counts the pids given out, and `reaped` are the pids that
`wait` has returned, the latest first. No code reads the three. -/
structure Sys (ncpu : ℕ) where
  proc : Fin NPROC → Proc
  nextpid : Pid
  initproc : Fin NPROC
  cpu : Fin ncpu → Option (Fin NPROC)
  pc : Fin NPROC → Pc
  hit : Fin NPROC → Bool
  allocs : ℕ
  reaped : List Pid

variable {ncpu : ℕ}

def Sys.set (s : Sys ncpu) (p : Fin NPROC) (x : Proc) : Sys ncpu :=
  { s with proc := update s.proc p x }

def Sys.goto (s : Sys ncpu) (p : Fin NPROC) (pc : Pc) : Sys ncpu :=
  { s with pc := update s.pc p pc }

/-- Back in `scheduler`, with `c->proc = 0`. -/
def Sys.sched (s : Sys ncpu) (c : Fin ncpu) : Sys ncpu :=
  { s with cpu := update s.cpu c none }

/-! ## Sleeping and waking -/

def wakeup1 (chan : Chan) (proc : Fin NPROC → Proc) : Fin NPROC → Proc := fun i =>
  if (proc i).state = .SLEEPING ∧ (proc i).chan = chan then { proc i with state := .RUNNABLE }
  else proc i

def sleep (s : Sys ncpu) (c : Fin ncpu) (p : Fin NPROC) (chan : Chan) : Sys ncpu :=
  (s.set p { s.proc p with chan := chan, state := .SLEEPING }).sched c

/-- A turn of the loop of `scheduler`, and the end of the `sleep` that the process comes back to. -/
def scheduler (s : Sys ncpu) (c : Fin ncpu) (p : Fin NPROC) : Option (Sys ncpu) :=
  if s.cpu c = none ∧ (s.proc p).state = .RUNNABLE then
    some { s.set p { s.proc p with state := .RUNNING, chan := .none } with
      cpu := update s.cpu c (some p) }
  else none

def yield (s : Sys ncpu) (c : Fin ncpu) (p : Fin NPROC) : Sys ncpu :=
  (s.set p { s.proc p with state := .RUNNABLE }).sched c

/-! ## fork -/

def unusedSlot (s : Sys ncpu) : Option (Fin NPROC) :=
  (List.finRange NPROC).find? fun i => (s.proc i).state = .UNUSED

/-- The section of `allocproc`, at the start of `fork`; without an unused entry `fork` returns. -/
def allocproc (s : Sys ncpu) (p : Fin NPROC) : Sys ncpu :=
  match unusedSlot s with
  | none => s
  | some np =>
    { (s.set np { s.proc np with state := .EMBRYO, pid := s.nextpid }).goto p (.forking np) with
      nextpid := s.nextpid + 1
      hit := update s.hit np false
      allocs := s.allocs + 1 }

/-- `kalloc` or `copyuvm` has failed. -/
def forkFails (s : Sys ncpu) (p np : Fin NPROC) : Sys ncpu :=
  (s.set np { s.proc np with state := .UNUSED }).goto p .other

/-- `np->parent = curproc` -/
def forkCopies (s : Sys ncpu) (p np : Fin NPROC) : Sys ncpu :=
  (s.set np { s.proc np with parent := some p }).goto p (.forked np)

/-- `np->state = RUNNABLE` -/
def forkReturns (s : Sys ncpu) (p np : Fin NPROC) : Sys ncpu :=
  (s.set np { s.proc np with state := .RUNNABLE }).goto p .other

/-! ## exit -/

/-- A turn of the loop of `exit` that passes abandoned children to init. -/
def passChild (cur init : Fin NPROC) (proc : Fin NPROC → Proc) (i : Fin NPROC) :
    Fin NPROC → Proc :=
  if (proc i).parent = some cur then
    let proc := update proc i { proc i with parent := some init }
    if (proc i).state = .ZOMBIE then wakeup1 (.proc init) proc else proc
  else proc

/-- What `wakeup1(curproc->parent)` wakes. -/
def chanOf : Option (Fin NPROC) → Chan
  | none => .none
  | some p => .proc p

/-- The section of `exit`. -/
def exit (s : Sys ncpu) (c : Fin ncpu) (p : Fin NPROC) : Option (Sys ncpu) :=
  if p = s.initproc then none
  else
    let proc := wakeup1 (chanOf (s.proc p).parent) s.proc
    let proc := (List.finRange NPROC).foldl (passChild p s.initproc) proc
    some (({ s with proc := proc }.set p { proc p with state := .ZOMBIE }).sched c)

/-! ## wait -/

/-- The first child that has exited. -/
def zombieChild (s : Sys ncpu) (p : Fin NPROC) : Option (Fin NPROC) :=
  (List.finRange NPROC).find? fun i =>
    (s.proc i).parent = some p ∧ (s.proc i).state = .ZOMBIE

/-- The pid that a scan of `wait` returns, if it returns one. -/
def waitReturns (s : Sys ncpu) (p : Fin NPROC) : Option Pid :=
  (zombieChild s p).map fun i => (s.proc i).pid

/-- A scan of `wait`, up to its return or its `sleep`. -/
def wait (s : Sys ncpu) (c : Fin ncpu) (p : Fin NPROC) : Sys ncpu :=
  match zombieChild s p with
  | some i =>
    { (s.set i { s.proc i with
        pid := 0, parent := none, killed := false, state := .UNUSED }).goto p .other with
      reaped := (s.proc i).pid :: s.reaped }
  | none =>
    if (∀ i, (s.proc i).parent ≠ some p) ∨ (s.proc p).killed = true then s.goto p .other
    else (sleep s c p (.proc p)).goto p .waiting

/-! ## kill -/

/-- The first entry with the pid. -/
def withPid (s : Sys ncpu) (pid : Pid) : Option (Fin NPROC) :=
  (List.finRange NPROC).find? fun i => (s.proc i).pid = pid

def kill (s : Sys ncpu) (pid : Pid) : Sys ncpu × ℤ :=
  let s' := { s with hit := fun i => if (s.proc i).pid = pid then true else s.hit i }
  match withPid s pid with
  | some i =>
    (s'.set i { s.proc i with
      killed := true
      state := if (s.proc i).state = .SLEEPING then .RUNNABLE else (s.proc i).state }, 0)
  | none => (s', -1)

/-- A fault in user space, in `trap`. -/
def fault (s : Sys ncpu) (p : Fin NPROC) : Sys ncpu :=
  { s.set p { s.proc p with killed := true } with hit := update s.hit p true }

/-! ## The machine -/

inductive Act (ncpu : ℕ)
  | scheduler (c : Fin ncpu) (p : Fin NPROC)
  | yield (c : Fin ncpu)
  | sleep (c : Fin ncpu) (n : ℕ)
  | wakeup (n : ℕ)
  | fork (c : Fin ncpu)
  | forkFails (c : Fin ncpu)
  | forkCopies (c : Fin ncpu)
  | forkReturns (c : Fin ncpu)
  | exit (c : Fin ncpu)
  | wait (c : Fin ncpu)
  | kill (pid : Pid)
  | fault (c : Fin ncpu)

/-- The current process of a processor, if it is at `pc`. -/
def curproc (s : Sys ncpu) (c : Fin ncpu) (pc : Pc) : Option (Fin NPROC) :=
  (s.cpu c).filter fun p => s.pc p = pc

def step (s : Sys ncpu) : Act ncpu → Option (Sys ncpu)
  | .scheduler c p => scheduler s c p
  | .yield c => (s.cpu c).map (yield s c)
  | .sleep c n => (curproc s c .other).map fun p => sleep s c p (.other n)
  | .wakeup n => some { s with proc := wakeup1 (.other n) s.proc }
  | .fork c => (curproc s c .other).map (allocproc s)
  | .forkFails c => (s.cpu c).bind fun p =>
    match s.pc p with
    | .forking np => some (forkFails s p np)
    | _ => none
  | .forkCopies c => (s.cpu c).bind fun p =>
    match s.pc p with
    | .forking np => some (forkCopies s p np)
    | _ => none
  | .forkReturns c => (s.cpu c).bind fun p =>
    match s.pc p with
    | .forked np => some (forkReturns s p np)
    | _ => none
  | .exit c => (curproc s c .other).bind (exit s c)
  | .wait c => (s.cpu c).bind fun p =>
    match s.pc p with
    | .other => some (wait s c p)
    | .waiting => some (wait s c p)
    | _ => none
  | .kill pid => some (kill s pid).1
  | .fault c => (curproc s c .other).map (fault s)

def first : Fin NPROC := ⟨0, nproc_pos⟩
def second : Fin NPROC := ⟨1, one_lt_nproc⟩

/-- After `userinit`: init is in the first entry. -/
def boot : Sys ncpu where
  proc := fun i => if i = first then ⟨.RUNNABLE, 1, none, .none, false⟩
    else ⟨.UNUSED, 0, none, .none, false⟩
  nextpid := 2
  initproc := first
  cpu := fun _ => none
  pc := fun _ => .other
  hit := fun _ => false
  allocs := 1
  reaped := []

end DuckoUnix.Sched
