import Mathlib.Data.Fintype.Basic
import DuckoUnix.Lib.Chain
import DuckoUnix.Lib.Run
import DuckoUnix.Param
import Mathlib.Algebra.Group.Nat.Defs

/-!
# The IDE driver and the memory disk

`ide.c` with the drive behind it, and `memide.c`. A section under `idelock` is one step: `iderw` up
to its `sleep`, the return of a process from `sleep` with the next test of its loop, and `ideintr`.
The drive works on one command at a time and raises one interrupt when it is done, without an
error. Disk 1, the disk of the file system, is present, so `havedisk1` is set.

A process in `iderw` holds the lock of its buffer. Until it returns nobody else touches the buffer;
all other changes of buffers by their holders are steps `prep`. The fields `requests` and `hist` of
`State` record what happened; no code reads them.
-/

namespace DuckoUnix.Ide

open Lib Function

abbrev Block := Fin BSIZE → BitVec 8

/-- `struct buf`, apart from its links and its lock. -/
structure Buf where
  dev : ℕ
  blockno : ℕ
  /-- `B_VALID` -/
  valid : Bool
  /-- `B_DIRTY` -/
  dirty : Bool
  data : Block

/-- `(b->flags & (B_VALID|B_DIRTY)) == B_VALID` -/
def Buf.Clean (b : Buf) : Prop := b.valid = true ∧ b.dirty = false

instance (b : Buf) : Decidable b.Clean := inferInstanceAs (Decidable (_ ∧ _))

abbrev B := Fin NBUF

/-! ## The memory disk -/

/-- The buffers and the image in memory. -/
structure Mem where
  bufs : B → Buf
  disk : ℕ → Block

/-- What the memory disk is asked to do, and changes of buffers by their holders. -/
inductive MAct
  | prep (b : B) (v : Buf)
  | iderw (b : B)

/-- `iderw` of `memide.c` on an image of `FSSIZE` blocks; none if it panics. -/
def memiderw (m : Mem) (b : B) : Option Mem :=
  let e := m.bufs b
  if e.Clean then none
  else if e.dev ≠ 1 then none
  else if FSSIZE ≤ e.blockno then none
  else if e.dirty then
    some {
      bufs := update m.bufs b { e with dirty := false, valid := true }
      disk := update m.disk e.blockno e.data }
  else
    some { m with bufs := update m.bufs b { e with data := m.disk e.blockno, valid := true } }

def Mem.step (m : Mem) : MAct → Option Mem
  | .prep b v => some { m with bufs := update m.bufs b v }
  | .iderw b => memiderw m b

/-! ## The drive -/

def SECTOR_SIZE : ℕ := 512

/-- The registers of a command, and the data that follow a write command. -/
structure Cmd where
  /-- port 0x1f2 -/
  count : BitVec 8
  /-- port 0x1f3 -/
  lba0 : BitVec 8
  /-- port 0x1f4 -/
  lba1 : BitVec 8
  /-- port 0x1f5 -/
  lba2 : BitVec 8
  /-- port 0x1f6 -/
  select : BitVec 8
  /-- none for `IDE_CMD_READ` -/
  write : Option Block

/-- The sector that the drive addresses. -/
def Cmd.sector (c : Cmd) : ℕ :=
  c.lba0.toNat + 2 ^ 8 * c.lba1.toNat + 2 ^ 16 * c.lba2.toNat +
    2 ^ 24 * (c.select &&& 0x0f#8).toNat

/-- The disk that the command is for. -/
def Cmd.unit (c : Cmd) : Bool := c.select.getLsbD 4

/-- The drive. -/
inductive Drive
  | idle
  | working (c : Cmd)
  /-- the command is done and the interrupt raised; the data of a read are at port 0x1f0 -/
  | done (c : Cmd) (port : Block)

/-! ## The driver -/

/-- Where a process is in `iderw`. -/
inductive Place
  | out
  /-- in `sleep` on the buffer -/
  | asleep (b : B)
  /-- on its way out of that `sleep` -/
  | woken (b : B)
  deriving DecidableEq

def Place.buf : Place → Option B
  | .out => none
  | .asleep b => some b
  | .woken b => some b

structure State where
  bufs : B → Buf
  qnext : B → Option B
  idequeue : Option B
  drive : Drive
  /-- the sectors of disk 0 and disk 1 -/
  disk : Bool → ℕ → Block
  place : Fin NPROC → Place
  /-- the buffers that `iderw` was called for -/
  requests : List B
  /-- what the memory disk would have been asked to do -/
  hist : List MAct

/-- Start the request for `e`; none if it panics. -/
def idestart (e : Buf) : Option Cmd :=
  let sectorPerBlock := BSIZE / SECTOR_SIZE
  let sector := BitVec.ofNat 32 (e.blockno * sectorPerBlock)
  if FSSIZE ≤ e.blockno then none
  else if 7 < sectorPerBlock then none
  else some {
    count := BitVec.ofNat 8 sectorPerBlock
    lba0 := sector.setWidth 8
    lba1 := (sector >>> 8).setWidth 8
    lba2 := (sector >>> 16).setWidth 8
    select := 0xe0#8 ||| ((BitVec.ofNat 8 e.dev &&& 1#8) <<< 4) |||
      ((sector >>> 24).setWidth 8 &&& 0x0f#8)
    write := if e.dirty then some e.data else none }

/-- Append `b` to `idequeue`. -/
def enqueue (s : State) (b : B) : State :=
  let qnext := update s.qnext b none
  match s.idequeue with
  | none => { s with qnext := qnext, idequeue := some b }
  | some x => { s with qnext := update qnext (tail qnext NBUF x) (some b) }

/-- No process is in `iderw` for `b`. -/
def State.Unused (s : State) (b : B) : Prop := ∀ p, (s.place p).buf ≠ some b

instance (s : State) (b : B) : Decidable (s.Unused b) := inferInstanceAs (Decidable (∀ _, _))

/-- `iderw` of process `p` up to the first `sleep`; none if it panics. -/
def iderw (s : State) (p : Fin NPROC) (b : B) : Option State :=
  if (s.bufs b).Clean then none
  else
    let t := { enqueue s b with
      place := update s.place p (.asleep b)
      requests := s.requests ++ [b] }
    if t.idequeue = some b then
      (idestart (s.bufs b)).map fun c => { t with drive := .working c }
    else some t

def wakeup (s : State) (b : B) : State :=
  { s with place := fun p => if s.place p = .asleep b then .woken b else s.place p }

/-- The interrupt handler, with `port` at port 0x1f0; none if it panics. -/
def ideintr (s : State) (port : Block) : Option State :=
  match s.idequeue with
  | none => some { s with drive := .idle }
  | some b =>
    let e := s.bufs b
    let data := if e.dirty then e.data else port
    let t := wakeup { s with
      idequeue := s.qnext b
      drive := .idle
      bufs := update s.bufs b { e with data := data, valid := true, dirty := false }
      hist := s.hist ++ [.iderw b] } b
    match t.idequeue with
    | none => some t
    | some b' => (idestart (t.bufs b')).map fun c => { t with drive := .working c }

/-- What can happen. -/
inductive Act
  /-- the holder of `b` changes it -/
  | prep (b : B) (v : Buf)
  /-- process `p` calls `iderw` -/
  | iderw (p : Fin NPROC) (b : B)
  /-- the drive carries out its command and raises the interrupt -/
  | drive
  /-- the interrupt is served -/
  | intr
  /-- `kill` makes a sleeping process runnable -/
  | kick (p : Fin NPROC)
  /-- a process that was woken up tests the flags of its buffer -/
  | wake (p : Fin NPROC)

/-- One step; none if it cannot be taken, or if the code panics. -/
def step (s : State) : Act → Option State
  | .prep b v =>
    if s.Unused b then
      some { s with bufs := update s.bufs b v, hist := s.hist ++ [.prep b v] }
    else none
  | .iderw p b =>
    if s.place p = .out ∧ s.Unused b ∧ (s.bufs b).dev = 1 ∧ (s.bufs b).blockno < FSSIZE then
      iderw s p b
    else none
  | .drive =>
    match s.drive with
    | .working c =>
      let disk := s.disk c.unit
      match c.write with
      | none => some { s with drive := .done c (disk c.sector) }
      | some d => some { s with
          drive := .done c d
          disk := update s.disk c.unit (update disk c.sector d) }
    | _ => none
  | .intr =>
    match s.drive with
    | .done _ port => ideintr s port
    | _ => none
  | .kick p =>
    match s.place p with
    | .asleep b => some { s with place := update s.place p (.woken b) }
    | _ => none
  | .wake p =>
    match s.place p with
    | .woken b =>
      if (s.bufs b).Clean then some { s with place := update s.place p .out }
      else some { s with place := update s.place p (.asleep b) }
    | _ => none

/-- Nothing is going on. -/
structure State.Init (s : State) : Prop where
  queue : s.idequeue = none
  drive : s.drive = .idle
  place : ∀ p, s.place p = .out
  requests : s.requests = []
  hist : s.hist = []

end DuckoUnix.Ide
