import DuckoUnix.Bio.Cache
import DuckoUnix.Lib.Dlist
import DuckoUnix.Lib.Run

/-!
# The buffer cache, pointer by pointer

`bio.c` with its list as `prev` and `next` pointers through `bcache.head`, for any number of
processes and devices. A step is a section under `bcache.lock`, the taking or the giving back of a
buffer's sleep-lock, a transfer of the disk, or a store by the holder of a buffer. `bread` is
`bget`, `acquire` and, for a buffer without `B_VALID`, `iderw`; `brelse` is `release` and `put`.
`commit` needs no step of its own: `write_log`, `write_head` and `install_trans` are made of
`bread`, stores, `bwrite` and `brelse`.

A step that would panic cannot be taken.
-/

namespace DuckoUnix.Bcache

open Lib Bio Function

/-- A node of the list: `bcache.head` (`none`) or a buffer. -/
abbrev Node := Option (Fin NBUF)

abbrev Key := ℕ × ℕ

/-- Where `idestart` finds a block: the drive `b->dev & 1` and the block on it. -/
def place (k : Key) : Key := (k.1 % 2, k.2)

/-- Where a process stands in its call of the cache. -/
inductive Phase
  | idle
  /-- `bget` has chosen the buffer and has yet to take its lock. -/
  | want (i : Fin NBUF) (k : Key)
  /-- `bread` has the lock of a buffer without `B_VALID` and has yet to read the disk. -/
  | read (i : Fin NBUF) (k : Key)
  /-- `brelse` has released the lock and has yet to take `bcache.lock`. -/
  | put (i : Fin NBUF)
  deriving DecidableEq

/-- The cache, the drives and the processes.

`touched i` says that the holder of buffer `i` has changed its data and called neither `bwrite` nor
`log_write` since; `latest k` is the data of the last change of block `k`, or what the disk held
at first. No code reads the two. -/
structure State (N : ℕ) where
  buf : Fin NBUF → Buf N
  links : Links Node
  disk : Key → Block
  phase : Fin N → Phase
  touched : Fin NBUF → Bool
  latest : Key → Block

variable {N : ℕ}

def key (x : Buf N) : Key := (x.dev, x.blockno)

def State.set (s : State N) (i : Fin NBUF) (x : Buf N) (p : Fin N) (ph : Phase) : State N :=
  { s with buf := update s.buf i x, phase := update s.phase p ph }

/-! ## The list -/

/-- `for(b = bcache.head.next; b != &bcache.head; b = b->next)` -/
def State.forward (s : State N) : List (Fin NBUF) :=
  (Links.walk s.links.next none (NBUF + 1) (s.links.next none)).reduceOption

/-- `for(b = bcache.head.prev; b != &bcache.head; b = b->prev)` -/
def State.backward (s : State N) : List (Fin NBUF) :=
  (Links.walk s.links.prev none (NBUF + 1) (s.links.prev none)).reduceOption

def binit (disk : Key → Block) : State N where
  buf := fun _ => ⟨0, 0, false, false, none, 0, fun _ => 0⟩
  links := (List.finRange NBUF).foldl (fun L i => L.pushFront none (some i))
    ⟨fun _ => none, fun _ => none⟩
  disk := disk
  phase := fun _ => .idle
  touched := fun _ => false
  latest := fun k => disk (place k)

/-! ## The operations -/

/-- `bget` up to its `acquiresleep`. -/
def bget (s : State N) (p : Fin N) (k : Key) : Option (State N) :=
  match s.forward.find? fun i => (s.buf i).Is k.1 k.2 with
  | some i => some (s.set i { s.buf i with refcnt := (s.buf i).refcnt + 1 } p (.want i k))
  | none =>
    match s.backward.find? fun i => (s.buf i).Unused with
    | some i => some (s.set i { s.buf i with
        dev := k.1, blockno := k.2, valid := false, dirty := false, refcnt := 1 } p (.want i k))
    | none => none

/-- `acquiresleep(&b->lock)`, and the test of `B_VALID` in `bread`. -/
def acquiresleep (s : State N) (p : Fin N) (i : Fin NBUF) (k : Key) : Option (State N) :=
  if (s.buf i).lock = none then
    some (s.set i { s.buf i with lock := some p } p
      (if (s.buf i).valid then .idle else .read i k))
  else none

def iderw (s : State N) (p : Fin N) (i : Fin NBUF) : Option (State N) :=
  let x := s.buf i
  if x.lock ≠ some p then none
  else if x.valid = true ∧ x.dirty = false then none
  else if FSSIZE ≤ x.blockno then none
  else if x.dirty then
    some { s.set i { x with valid := true, dirty := false } p .idle with
      disk := update s.disk (place (key x)) x.data }
  else some (s.set i { x with valid := true, data := s.disk (place (key x)) } p .idle)

def store (s : State N) (p : Fin N) (i : Fin NBUF) (d : Block) : Option (State N) :=
  if (s.buf i).lock = some p then
    some { s.set i { s.buf i with data := d } p .idle with
      touched := update s.touched i true
      latest := update s.latest (key (s.buf i)) d }
  else none

def bwrite (s : State N) (p : Fin N) (i : Fin NBUF) : Option (State N) :=
  if (s.buf i).lock = some p then
    (iderw (s.set i { s.buf i with dirty := true } p .idle) p i).map fun s' =>
      { s' with touched := update s'.touched i false }
  else none

/-- What `log_write` does to the buffer of its caller. -/
def log_write (s : State N) (p : Fin N) (i : Fin NBUF) : Option (State N) :=
  if (s.buf i).lock = some p then
    some { s.set i { s.buf i with dirty := true } p .idle with
      touched := update s.touched i false }
  else none

/-- `brelse` up to its `releasesleep`. A changed buffer is released only after `bwrite` or
`log_write`. -/
def releasesleep (s : State N) (p : Fin N) (i : Fin NBUF) : Option (State N) :=
  if (s.buf i).lock = some p ∧ s.touched i = false then
    some (s.set i { s.buf i with lock := none } p (.put i))
  else none

def brelse (s : State N) (p : Fin N) (i : Fin NBUF) : State N :=
  let refcnt := (s.buf i).refcnt - 1
  { s.set i { s.buf i with refcnt := refcnt } p .idle with
    links := if refcnt = 0 then (s.links.unlink (some i)).pushFront none (some i) else s.links }

/-! ## The machine -/

inductive Act (N : ℕ)
  | bget (p : Fin N) (k : Key)
  | acquire (p : Fin N)
  | iderw (p : Fin N)
  | store (p : Fin N) (i : Fin NBUF) (d : Block)
  | bwrite (p : Fin N) (i : Fin NBUF)
  | log_write (p : Fin N) (i : Fin NBUF)
  | release (p : Fin N) (i : Fin NBUF)
  | put (p : Fin N)

def step (s : State N) : Act N → Option (State N)
  | .bget p k => if s.phase p = .idle then bget s p k else none
  | .acquire p =>
    match s.phase p with
    | .want i k => acquiresleep s p i k
    | _ => none
  | .iderw p =>
    match s.phase p with
    | .read i _ => iderw s p i
    | _ => none
  | .store p i d => if s.phase p = .idle then store s p i d else none
  | .bwrite p i => if s.phase p = .idle then bwrite s p i else none
  | .log_write p i => if s.phase p = .idle then log_write s p i else none
  | .release p i => if s.phase p = .idle then releasesleep s p i else none
  | .put p =>
    match s.phase p with
    | .put i => some (brelse s p i)
    | _ => none

/-- The `bread` that the action completes: its process, its buffer and the block it asked for. -/
def returns (s : State N) : Act N → Option (Fin N × Fin NBUF × Key)
  | .acquire p =>
    match s.phase p with
    | .want i k => if (s.buf i).valid then some (p, i, k) else none
    | _ => none
  | .iderw p =>
    match s.phase p with
    | .read i k => some (p, i, k)
    | _ => none
  | _ => none

end DuckoUnix.Bcache
