import DuckoUnix.Lib.Bytes
import DuckoUnix.Lib.Except
import DuckoUnix.Lib.Sum
import DuckoUnix.Param
import Mathlib.Data.Fintype.Basic
import Mathlib.Data.List.FinRange

/-!
# The buffer cache

`bio.c` over the disk driver: `bget`, `bread`, `bwrite`, `brelse` and `iderw`, with the cache as
the array `buf[NBUF]` and the list through `prev` and `next`. A section under `bcache.lock` is one
function; so is taking a buffer's sleep-lock and the read of the disk behind it. A one-block
disk write is atomic.

A function returns the new memory, or says that the caller has to sleep, or that the kernel
panics.
-/

namespace DuckoUnix.Bio

open Lib Function

/-- `uchar data[BSIZE]` -/
abbrev Block := Bytes

/-- `struct buf`. `lock` is its sleep-lock with the process that holds it. -/
structure Buf (N : ℕ) where
  dev : ℕ
  blockno : ℕ
  valid : Bool
  dirty : Bool
  lock : Option (Fin N)
  refcnt : ℕ
  data : Block

/-- The cache and the disk `ROOTDEV`. `order` is the list from `head.next` on; `want p` is the
buffer `bget` has found for `p`, which has yet to take its lock.

`touched i` is the process that has changed the data of buffer `i` and not handed it to
`log_write` since. It is there for the rule that the callers of `log_write` follow, and no
code reads it. -/
structure Mem (N : ℕ) where
  buf : Fin NBUF → Buf N
  order : List (Fin NBUF)
  want : Fin N → Option (Fin NBUF)
  touched : Fin NBUF → Option (Fin N)
  disk : ℕ → Block

inductive Panic
  /-- `panic("bget: no buffers")` -/
  | noBuffers
  /-- `panic("bwrite")` -/
  | bwrite
  /-- `panic("brelse")` -/
  | brelse
  /-- `panic("iderw: buf not locked")` -/
  | notLocked
  /-- `panic("iderw: nothing to do")` -/
  | nothingToDo
  /-- `panic("incorrect blockno")` -/
  | incorrectBlockno
  deriving DecidableEq

/-- Why a call does not return. -/
inductive Stop
  | sleep
  | panic (e : Panic)
  deriving DecidableEq

variable {N : ℕ}

def Buf.Is (x : Buf N) (dev b : ℕ) : Prop := x.dev = dev ∧ x.blockno = b

instance (x : Buf N) (dev b : ℕ) : Decidable (x.Is dev b) := inferInstanceAs (Decidable (_ ∧ _))

def Buf.Unused (x : Buf N) : Prop := x.refcnt = 0 ∧ x.dirty = false

instance (x : Buf N) : Decidable x.Unused := inferInstanceAs (Decidable (_ ∧ _))

/-- `bget` up to its `acquiresleep`. -/
def bget (m : Mem N) (p : Fin N) (dev b : ℕ) : Except Stop (Mem N × Fin NBUF) :=
  match m.order.find? fun i => (m.buf i).Is dev b with
  | some i =>
    .ok ({ m with
      buf := update m.buf i { m.buf i with refcnt := (m.buf i).refcnt + 1 }
      want := update m.want p (some i) }, i)
  | none =>
    match m.order.reverse.find? fun i => (m.buf i).Unused with
    | some i =>
      .ok ({ m with
        buf := update m.buf i { m.buf i with
          dev := dev, blockno := b, valid := false, dirty := false, refcnt := 1 }
        want := update m.want p (some i) }, i)
    | none => .error (.panic .noBuffers)

def acquiresleep (m : Mem N) (p : Fin N) (i : Fin NBUF) : Except Stop (Mem N) :=
  if (m.buf i).lock = none then
    .ok { m with
      buf := update m.buf i { m.buf i with lock := some p }
      want := update m.want p none }
  else .error .sleep

/-- `iderw`: write the buffer if it is dirty, else read it. -/
def iderw (m : Mem N) (p : Fin N) (i : Fin NBUF) : Except Stop (Mem N) :=
  let x := m.buf i
  if x.lock ≠ some p then .error (.panic .notLocked)
  else if x.valid = true ∧ x.dirty = false then .error (.panic .nothingToDo)
  else if FSSIZE ≤ x.blockno then .error (.panic .incorrectBlockno)
  else if x.dirty then
    .ok { m with
      buf := update m.buf i { x with valid := true, dirty := false }
      disk := update m.disk x.blockno x.data }
  else
    .ok { m with
      buf := update m.buf i { x with valid := true, data := m.disk x.blockno } }

/-- The rest of `bread` once `bget` has found the buffer. -/
def lockRead (m : Mem N) (p : Fin N) (i : Fin NBUF) : Except Stop (Mem N) := do
  let m ← acquiresleep m p i
  if (m.buf i).valid then .ok m else iderw m p i

def bread (m : Mem N) (p : Fin N) (b : ℕ) : Except Stop (Mem N × Fin NBUF) := do
  let (m, i) ← bget m p ROOTDEV b
  let m ← lockRead m p i
  .ok (m, i)

/-- The holder of the buffer stores into its data. -/
def memmove (m : Mem N) (i : Fin NBUF) (d : Block) : Mem N :=
  { m with buf := update m.buf i { m.buf i with data := d } }

def bwrite (m : Mem N) (p : Fin N) (i : Fin NBUF) : Except Stop (Mem N) :=
  if (m.buf i).lock ≠ some p then .error (.panic .bwrite)
  else iderw { m with buf := update m.buf i { m.buf i with dirty := true } } p i

def brelse (m : Mem N) (p : Fin N) (i : Fin NBUF) : Except Stop (Mem N) :=
  if (m.buf i).lock ≠ some p then .error (.panic .brelse)
  else
    let refcnt := (m.buf i).refcnt - 1
    .ok { m with
      buf := update m.buf i { m.buf i with lock := none, refcnt := refcnt }
      order := if refcnt = 0 then i :: m.order.erase i else m.order }

def binit (disk : ℕ → Block) : Mem N where
  buf := fun _ => ⟨0, 0, false, false, none, 0, fun _ => 0⟩
  order := (List.finRange NBUF).reverse
  want := fun _ => none
  touched := fun _ => none
  disk := disk

end DuckoUnix.Bio
