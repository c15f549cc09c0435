import DuckoUnix.Lib.Run
import Mathlib.Data.BitVec

/-!
# Pipes

`pipe.c` with the parts of `sleep`, `wakeup` and `kill` it relies on. The state is one pipe and
every process that has called into it; a step is one section of code between two points where
`p->lock` is free:

* a call of `piperead` or `pipewrite` up to its return or its first `sleep`;
* the code a woken process runs from that `sleep` to its return or its next `sleep`;
* a call of `pipeclose`;
* a `kill`, which only takes `ptable.lock` and so may come at any moment.

The counters `nread` and `nwrite` are the 32-bit `uint`s of the source.
-/

namespace DuckoUnix.Pipes

open Function

def PIPESIZE : ℕ := 512

/-- `struct pipe`, without its lock: a state is seen when the lock is free. -/
structure Pipe where
  data : ℕ → UInt8
  nread : BitVec 32
  nwrite : BitVec 32
  readopen : Bool
  writeopen : Bool

/-- The two channels of a pipe: the addresses of its counters. -/
inductive Chan
  | nread
  | nwrite
  deriving DecidableEq

/-- What a process is doing with the pipe. `asleep` is `SLEEPING` against `RUNNABLE`: a woken
process still has to take `p->lock` again. -/
inductive PState
  /-- outside the pipe code; the value its last call returned -/
  | idle (ret : ℤ)
  /-- in the `sleep` of `piperead`, called with length `n` -/
  | reading (n : ℕ) (asleep : Bool)
  /-- in the `sleep` of `pipewrite`, called with length `n`, the bytes `rest` not yet stored -/
  | writing (n : ℕ) (rest : List UInt8) (asleep : Bool)
  deriving DecidableEq

def PState.chan : PState → Option Chan
  | .reading _ true => some .nread
  | .writing _ _ true => some .nwrite
  | _ => none

def PState.wake : PState → PState
  | .reading n _ => .reading n false
  | .writing n rest _ => .writing n rest false
  | .idle r => .idle r

/-- The pipe, its processes, and two history variables that no code reads: the bytes stored by
writers and the bytes taken by readers, in order. -/
structure State where
  pipe : Pipe
  freed : Bool
  procs : ℕ → PState
  killed : ℕ → Bool
  stored : List UInt8
  removed : List UInt8

def Pipe.full (p : Pipe) : Prop := p.nwrite = p.nread + BitVec.ofNat 32 PIPESIZE

instance (p : Pipe) : Decidable p.full := by unfold Pipe.full; infer_instance

/-- `p->data[p->nwrite++ % PIPESIZE] = c` -/
def Pipe.put (p : Pipe) (c : UInt8) : Pipe :=
  { p with data := update p.data (p.nwrite.toNat % PIPESIZE) c, nwrite := p.nwrite + 1 }

/-- `p->data[p->nread++ % PIPESIZE]` -/
def Pipe.take (p : Pipe) : UInt8 × Pipe :=
  (p.data (p.nread.toNat % PIPESIZE), { p with nread := p.nread + 1 })

/-- The stores of `pipewrite` up to the first full pipe; the bytes it could not store. -/
def fill : Pipe → List UInt8 → Pipe × List UInt8
  | p, [] => (p, [])
  | p, c :: cs => if p.full then (p, c :: cs) else fill (p.put c) cs

/-- The copy loop of `piperead`; the bytes it took. -/
def drain : Pipe → ℕ → Pipe × List UInt8
  | p, 0 => (p, [])
  | p, n + 1 =>
    if p.nread = p.nwrite then (p, [])
    else
      let r := drain p.take.2 n
      (r.1, p.take.1 :: r.2)

def wakeup (chan : Chan) (procs : ℕ → PState) : ℕ → PState := fun q =>
  if (procs q).chan = some chan then (procs q).wake else procs q

/-- The section of `pipewrite` by process `q` that has the bytes `cs` of its `n` left to store.
The two returns of the loop do not call `wakeup`. -/
def pipewrite (s : State) (q n : ℕ) (cs : List UInt8) : State :=
  let r := fill s.pipe cs
  let s := { s with pipe := r.1, stored := s.stored ++ cs.take (cs.length - r.2.length) }
  match r.2 with
  | [] => { s with procs := update (wakeup .nread s.procs) q (.idle n) }
  | rest =>
    if s.pipe.readopen = false ∨ s.killed q then
      { s with procs := update s.procs q (.idle (-1)) }
    else
      { s with procs := update (wakeup .nread s.procs) q (.writing n rest true) }

/-- The section of `piperead` by process `q` that asks for `n` bytes. -/
def piperead (s : State) (q n : ℕ) : State :=
  if s.pipe.nread = s.pipe.nwrite ∧ s.pipe.writeopen then
    if s.killed q then
      { s with procs := update s.procs q (.idle (-1)) }
    else
      { s with procs := update s.procs q (.reading n true) }
  else
    let r := drain s.pipe n
    { s with
      pipe := r.1
      removed := s.removed ++ r.2
      procs := update (wakeup .nwrite s.procs) q (.idle r.2.length) }

/-- `pipeclose(p, writable)`; closing the second end frees the pipe. -/
def pipeclose (s : State) (writable : Bool) : State :=
  let s :=
    if writable then
      { s with
        pipe := { s.pipe with writeopen := false }
        procs := wakeup .nread s.procs }
    else
      { s with
        pipe := { s.pipe with readopen := false }
        procs := wakeup .nwrite s.procs }
  { s with freed := !s.pipe.readopen && !s.pipe.writeopen }

/-- `kill` of process `q`: sets `killed` and ends a sleep on any channel. -/
def kill (s : State) (q : ℕ) : State :=
  { s with
    killed := update s.killed q true
    procs := update s.procs q (s.procs q).wake }

inductive Act
  /-- process `q` calls `piperead` -/
  | read (q n : ℕ)
  /-- process `q` calls `pipewrite` -/
  | write (q : ℕ) (cs : List UInt8)
  /-- process `q`, woken, takes the lock again -/
  | resume (q : ℕ)
  /-- the last descriptor of one end is closed -/
  | close (writable : Bool)
  /-- process `q` is killed -/
  | kill (q : ℕ)

/-- One step. After the pipe has been freed nothing but `kill` can happen. -/
def step (s : State) : Act → Option State
  | .read q n =>
    match s.freed, s.procs q with
    | false, .idle _ => some (piperead s q n)
    | _, _ => none
  | .write q cs =>
    match s.freed, s.procs q with
    | false, .idle _ => some (pipewrite s q cs.length cs)
    | _, _ => none
  | .resume q =>
    match s.freed, s.procs q with
    | false, .reading n false => some (piperead s q n)
    | false, .writing n rest false => some (pipewrite s q n rest)
    | _, _ => none
  | .close writable => if s.freed then none else some (pipeclose s writable)
  | .kill q => some (kill s q)

/-- The pipe that `pipealloc` makes. -/
def pipealloc : Pipe where
  data := fun _ => 0
  nread := 0
  nwrite := 0
  readopen := true
  writeopen := true

/-- A new pipe, no process inside its code. -/
def init : State where
  pipe := pipealloc
  freed := false
  procs := fun _ => .idle 0
  killed := fun _ => false
  stored := []
  removed := []

/-! ## The counters -/

/-- The number of bytes in the pipe: `nwrite - nread` in `uint` arithmetic. -/
def Pipe.count (p : Pipe) : ℕ := (p.nwrite - p.nread).toNat

theorem Pipe.full_iff (p : Pipe) : p.full ↔ p.count = PIPESIZE := by
  unfold Pipe.full Pipe.count PIPESIZE
  bv_omega

theorem Pipe.empty_iff (p : Pipe) : p.nread = p.nwrite ↔ p.count = 0 := by
  unfold Pipe.count
  bv_omega

theorem Pipe.count_put {p : Pipe} {c : UInt8} (h : p.count < PIPESIZE) :
    (p.put c).count = p.count + 1 := by
  unfold Pipe.count PIPESIZE at *
  unfold Pipe.put
  bv_omega

theorem Pipe.count_take {p : Pipe} (h : p.count ≠ 0) : p.take.2.count + 1 = p.count := by
  unfold Pipe.count at *
  unfold Pipe.take
  bv_omega

theorem fill_spec (cs : List UInt8) : ∀ p : Pipe, p.count ≤ PIPESIZE →
    (fill p cs).2 = cs.drop (PIPESIZE - p.count) ∧
      (fill p cs).1.count = min PIPESIZE (p.count + cs.length) := by
  induction cs with
  | nil =>
    intro p hp
    refine ⟨by simp [fill], ?_⟩
    show p.count = min PIPESIZE (p.count + 0)
    omega
  | cons c cs ih =>
    intro p hp
    rw [fill]
    by_cases hf : p.full
    · rw [if_pos hf]
      have hc := p.full_iff.mp hf
      refine ⟨by rw [hc, Nat.sub_self, List.drop_zero], ?_⟩
      rw [hc, List.length_cons]
      omega
    · rw [if_neg hf]
      have hlt : p.count < PIPESIZE := lt_of_le_of_ne hp fun h => hf (p.full_iff.mpr h)
      have hput := Pipe.count_put (c := c) hlt
      obtain ⟨h1, h2⟩ := ih (p.put c) (by omega)
      refine ⟨?_, by rw [h2, hput, List.length_cons]; omega⟩
      rw [h1, hput, show PIPESIZE - p.count = PIPESIZE - (p.count + 1) + 1 by omega,
        List.drop_succ_cons]

theorem fill_open (cs : List UInt8) : ∀ p : Pipe,
    (fill p cs).1.readopen = p.readopen ∧ (fill p cs).1.writeopen = p.writeopen ∧
      (fill p cs).1.nread = p.nread := by
  induction cs with
  | nil => intro p; exact ⟨rfl, rfl, rfl⟩
  | cons c cs ih =>
    intro p
    rw [fill]
    split_ifs
    · exact ⟨rfl, rfl, rfl⟩
    · exact ih (p.put c)

theorem drain_spec (n : ℕ) : ∀ p : Pipe,
    (drain p n).1.count + (drain p n).2.length = p.count ∧
      (drain p n).1.readopen = p.readopen ∧ (drain p n).1.writeopen = p.writeopen := by
  induction n with
  | zero => intro p; exact ⟨rfl, rfl, rfl⟩
  | succ n ih =>
    intro p
    rw [drain]
    by_cases he : p.nread = p.nwrite
    · rw [if_pos he]; exact ⟨rfl, rfl, rfl⟩
    · rw [if_neg he]
      obtain ⟨h1, h2, h3⟩ := ih p.take.2
      have ht := Pipe.count_take (p := p) fun h => he (p.empty_iff.mpr h)
      refine ⟨?_, h2, h3⟩
      simp only [List.length_cons]
      omega

end DuckoUnix.Pipes
