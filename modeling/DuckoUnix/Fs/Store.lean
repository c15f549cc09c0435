import Mathlib.Data.List.FinRange
import DuckoUnix.Lib.Wp
import DuckoUnix.Fs.Format

/-!
# The file system: blocks, the inode cache and the contents of inodes

The part of `fs.c` that works on blocks and on single inodes, over the disk as the buffer cache shows
it. The functions that lock inodes and pass references around are in `Inode`.

There is one device, `ROOTDEV`: the root directory is on it, and every other inode is on the device
of the directory it was found in. So devices and their comparisons are left out. What `log_write`
does to the log is in `Log`; here it changes the block, and it panics outside of a transaction.

The super block is the one that `iinit` reads from the disk. `fssize` is the constant `FSSIZE` that
`ide.c` is compiled with and that it checks block numbers against; it is a field so that file systems
of every size can be looked at. Counters are natural numbers, also the `int`s of `balloc`: file systems
are taken to be so small that these do not overflow.

The last four fields of `Store` record what happened; no code reads them.
-/

namespace DuckoUnix.Fs

open Lib Function

/-- How a system call stops. -/
inductive Panic
  /-- "incorrect blockno" of `ide.c` -/
  | blockno
  /-- "log_write outside of trans" -/
  | outsideTrans
  /-- "balloc: out of blocks" -/
  | outOfBlocks
  /-- "freeing free block" -/
  | freeingFree
  /-- "ialloc: no inodes" -/
  | iallocNoInodes
  /-- "iget: no inodes" -/
  | igetNoInodes
  /-- "ilock" -/
  | ilock
  /-- "ilock: no type" -/
  | noType
  /-- "iunlock" -/
  | iunlock
  /-- "bmap: out of range" -/
  | bmapRange
  /-- "dirlookup not DIR" -/
  | notDir
  /-- "dirlookup read" -/
  | dirlookupRead
  /-- "dirlink read" -/
  | dirlinkRead
  /-- "dirlink" -/
  | dirlink
  /-- "isdirempty: readi" -/
  | isdirempty
  /-- "unlink: nlink < 1" -/
  | unlinkNlink
  /-- "unlink: writei" -/
  | unlinkWritei
  /-- "create dots" -/
  | createDots
  /-- "create: dirlink" -/
  | createDirlink
  /-- "filedup" -/
  | filedup
  /-- "fileclose" -/
  | fileclose
  /-- "fileread" -/
  | fileread
  /-- "filewrite" -/
  | filewrite
  /-- "short filewrite" -/
  | shortFilewrite
  /-- "init exiting" -/
  | initExiting
  /-- the process waits for a lock that it holds -/
  | deadlock
  deriving DecidableEq, Repr

/-- `struct inode`; the fields of the disk inode are one record. -/
structure Inode where
  inum : ℕ
  ref : ℕ
  /-- the sleep-lock is held -/
  locked : Bool
  valid : Bool
  din : Dinode

/-- The disk and the inode cache. -/
structure Store where
  sb : Superblock
  fssize : ℕ
  disk : Disk
  icache : Fin NINODE → Inode
  /-- `log.outstanding` -/
  outstanding : ℕ
  /-- the blocks that `log_write` was called on, in order -/
  logged : List ℕ
  /-- how often `balloc` returned -/
  allocs : ℕ
  /-- how often it returned to a `bmap` that `readi` had called -/
  readAllocs : ℕ
  /-- an inode was unlocked whose copy was not the one on the disk -/
  stale : Bool

/-- After `iinit`: the inode cache is empty. -/
def Store.boot (sb : Superblock) (fssize : ℕ) (d : Disk) : Store where
  sb := sb
  fssize := fssize
  disk := d
  icache _ := ⟨0, 0, false, false, .zero⟩
  outstanding := 0
  logged := []
  allocs := 0
  readAllocs := 0
  stale := false

abbrev Halt := Panic × Store

/-- File system code. -/
abbrev K := Prog Store Halt

def panic {α : Type} (e : Panic) : K α := do throw (e, ← get)

/-- An inode in memory. -/
abbrev Ip := Fin NINODE

/-! ## Blocks -/

def begin_op : K Unit := modify fun s => { s with outstanding := s.outstanding + 1 }

def end_op : K Unit := modify fun s => { s with outstanding := s.outstanding - 1 }

/-- `bread`: the contents of a block. -/
def bread (b : ℕ) : K Bytes := do
  if (← get).fssize ≤ b then panic .blockno
  return (← get).disk b

/-- `log_write` of block `b` with the contents `m`. -/
def log_write (b : ℕ) (m : Bytes) : K Unit := do
  if (← get).outstanding < 1 then panic .outsideTrans
  modify fun s => { s with disk := update s.disk b m, logged := s.logged ++ [b] }

def bzero (b : ℕ) : K Unit := do
  let _ ← bread b
  log_write b fun _ => 0

/-- The first clear bit of a block of the free map, among the first `n`. -/
@[irreducible]
def firstFree (m : Bytes) (n : ℕ) : Option ℕ := (List.range n).find? fun bi => !bit m bi

/-- The loop of `balloc` over the blocks of the free map, with `n` to go. -/
def ballocLoop : ℕ → ℕ → K ℕ
  | 0, _ => panic .outOfBlocks
  | n + 1, b => do
    let sb := (← get).sb
    if sb.size ≤ b then panic .outOfBlocks
    let bp ← bread (BBLOCK b sb)
    match firstFree bp (min BPB (sb.size - b)) with
    | none => ballocLoop n (b + BPB)
    | some bi =>
      log_write (BBLOCK b sb) (setBit bp bi)
      bzero (b + bi)
      modify fun s => { s with allocs := s.allocs + 1 }
      return b + bi

/-- Allocate a zeroed disk block. -/
def balloc : K ℕ := do ballocLoop ((← get).sb.size / BPB + 1) 0

/-- Free a disk block. -/
def bfree (b : ℕ) : K Unit := do
  let sb := (← get).sb
  let bp ← bread (BBLOCK b sb)
  if bit bp (b % BPB) then log_write (BBLOCK b sb) (clearBit bp (b % BPB))
  else panic .freeingFree

/-! ## Inodes -/

def inode (ip : Ip) : K Inode := return (← get).icache ip

def setInode (ip : Ip) (f : Inode → Inode) : K Unit :=
  modify fun s => { s with icache := update s.icache ip (f (s.icache ip)) }

/-- Change the copy of the disk inode. -/
def setDin (ip : Ip) (f : Dinode → Dinode) : K Unit :=
  setInode ip fun e => { e with din := f e.din }

/-- Copy a modified in-memory inode to disk. -/
def iupdate (ip : Ip) : K Unit := do
  let e ← inode ip
  let sb := (← get).sb
  let bp ← bread (IBLOCK e.inum sb)
  log_write (IBLOCK e.inum sb) (putDinode bp (e.inum % IPB) e.din)

/-- The cached copy of inode `inum`. -/
def cached (s : Store) (inum : ℕ) : Option Ip :=
  (List.finRange NINODE).find? fun ip => 0 < (s.icache ip).ref ∧ (s.icache ip).inum = inum

/-- The first empty slot of the cache. -/
def empty (s : Store) : Option Ip := (List.finRange NINODE).find? fun ip => (s.icache ip).ref = 0

/-- Find the inode with number `inum` and return the in-memory copy. -/
def iget (inum : ℕ) : K Ip := do
  let s ← get
  match cached s inum with
  | some ip =>
    setInode ip fun e => { e with ref := e.ref + 1 }
    return ip
  | none =>
    match empty s with
    | none => panic .igetNoInodes
    | some ip =>
      setInode ip fun e => { e with inum := inum, ref := 1, valid := false }
      return ip

/-- The loop of `ialloc` from inode `inum` on, with `n` to go: the number of the inode that it
allocates. -/
def iallocLoop (type : BitVec 16) : ℕ → ℕ → K ℕ
  | 0, _ => panic .iallocNoInodes
  | n + 1, inum => do
    let sb := (← get).sb
    let bp ← bread (IBLOCK inum sb)
    if (getDinode bp (inum % IPB)).type = T_FREE then
      log_write (IBLOCK inum sb) (putDinode bp (inum % IPB) { Dinode.zero with type := type })
      return inum
    else iallocLoop type n (inum + 1)

/-- `ialloc` up to the call of `iget`. -/
def claim (type : BitVec 16) : K ℕ := do iallocLoop type ((← get).sb.ninodes - 1) 1

def acquire (ip : Ip) : K Unit := do
  if (← inode ip).locked then panic .deadlock
  setInode ip fun e => { e with locked := true }

def release (ip : Ip) : K Unit :=
  modify fun s =>
    let e := s.icache ip
    { s with
      icache := update s.icache ip { e with locked := false }
      stale := s.stale || (e.valid && decide (e.din ≠ dinode s.sb s.disk e.inum)) }

/-- The part of `ilock` that reads the inode from disk. -/
def load (ip : Ip) : K Unit := do
  let e ← inode ip
  if e.valid = false then
    let bp ← bread (IBLOCK e.inum (← get).sb)
    setInode ip fun e => { e with din := getDinode bp (e.inum % IPB), valid := true }
    if (← inode ip).din.type = T_FREE then panic .noType

/-! ## Inode content -/

def Dinode.addr (di : Dinode) (k : ℕ) : BitVec 32 :=
  if h : k < NDIRECT + 1 then di.addrs ⟨k, h⟩ else 0

def Dinode.setAddr (di : Dinode) (k : ℕ) (a : BitVec 32) : Dinode :=
  { di with addrs := fun j => if j.val = k then a else di.addrs j }

/-- `if((addr = ip->addrs[k]) == 0) ip->addrs[k] = addr = balloc(ip->dev)` -/
def addrOrAlloc (ip : Ip) (k : ℕ) : K ℕ := do
  let addr := ((← inode ip).din.addr k).toNat
  if addr = 0 then
    let b ← balloc
    setDin ip fun di => di.setAddr k (BitVec.ofNat 32 b)
    return b
  else return addr

/-- The disk block of the `bn`th block of the file; it is allocated if there is none. -/
def bmap (ip : Ip) (bn : ℕ) : K ℕ := do
  if bn < NDIRECT then addrOrAlloc ip bn
  else if bn - NDIRECT < NINDIRECT then
    let ind ← addrOrAlloc ip NDIRECT
    let bp ← bread ind
    let addr := (getAddr bp (bn - NDIRECT)).toNat
    if addr = 0 then
      let b ← balloc
      log_write ind (putAddr bp (bn - NDIRECT) (BitVec.ofNat 32 b))
      return b
    else return addr
  else panic .bmapRange

/-- The first loop of `itrunc`, over block numbers of the inode. -/
def truncDirect (ip : Ip) : List ℕ → K Unit
  | [] => return ()
  | k :: ks => do
    let addr := ((← inode ip).din.addr k).toNat
    if addr ≠ 0 then
      bfree addr
      setDin ip fun di => di.setAddr k 0
    truncDirect ip ks

/-- The second loop of `itrunc`, over entries of the indirect block `bp`. -/
def truncIndirect (bp : Bytes) : List ℕ → K Unit
  | [] => return ()
  | j :: js => do
    if (getAddr bp j).toNat ≠ 0 then bfree (getAddr bp j).toNat
    truncIndirect bp js

/-- Truncate inode: discard its contents. -/
def itrunc (ip : Ip) : K Unit := do
  truncDirect ip (List.range NDIRECT)
  let ind := ((← inode ip).din.addr NDIRECT).toNat
  if ind ≠ 0 then
    let bp ← bread ind
    truncIndirect bp (List.range NINDIRECT)
    bfree ind
    setDin ip fun di => di.setAddr NDIRECT 0
  setDin ip fun di => { di with size := 0 }
  iupdate ip

/-- The part of `iput` that frees an inode without links and without other references. -/
def ifree (ip : Ip) : K Unit := do
  itrunc ip
  setDin ip fun di => { di with type := T_FREE }
  iupdate ip
  setInode ip fun e => { e with valid := false }

def slice (m : Bytes) (off n : ℕ) : List (BitVec 8) := (List.range n).map fun k => m (off + k)

/-- A `bmap` called by `readi`. -/
def bmapRead (ip : Ip) (bn : ℕ) : K ℕ := do
  let before := (← get).allocs
  let addr ← bmap ip bn
  modify fun s => { s with readAllocs := s.readAllocs + (s.allocs - before) }
  return addr

/-- The loop of `readi`; the first argument bounds the iterations. -/
def readLoop (ip : Ip) : ℕ → ℕ → ℕ → K (List (BitVec 8))
  | 0, _, _ => return []
  | k + 1, off, n => do
    if n = 0 then return []
    let addr ← bmapRead ip (off / BSIZE)
    let bp ← bread addr
    let m := min n (BSIZE - off % BSIZE)
    let rest ← readLoop ip k (off + m) (n - m)
    return slice bp (off % BSIZE) m ++ rest

def UINT : ℕ := 4294967296

/-- `readi` of an inode that is no device; none for -1. -/
def readFile (ip : Ip) (off n : ℕ) : K (Option (List (BitVec 8))) := do
  let di := (← inode ip).din
  if di.size.toNat < off ∨ (off + n) % UINT < off then return none
  else
    let n := if di.size.toNat < off + n then di.size.toNat - off else n
    return some (← readLoop ip n off n)

/-- The block `m` with `bs` stored at `off`. -/
def blit (m : Bytes) (off : ℕ) (bs : List (BitVec 8)) : Bytes := fun i =>
  if off ≤ i ∧ i < off + bs.length then bs.getD (i - off) 0 else m i

/-- The loop of `writei`; the first argument bounds the iterations. Returns the offset behind the
last byte. -/
def writeLoop (ip : Ip) : ℕ → ℕ → List (BitVec 8) → K ℕ
  | 0, off, _ => return off
  | k + 1, off, src => do
    if src = [] then return off
    let addr ← bmap ip (off / BSIZE)
    let bp ← bread addr
    let m := min src.length (BSIZE - off % BSIZE)
    log_write addr (blit bp (off % BSIZE) (src.take m))
    writeLoop ip k (off + m) (src.drop m)

/-- `writei` of an inode that is no device; none for -1. -/
def writeFile (ip : Ip) (src : List (BitVec 8)) (off : ℕ) : K (Option ℕ) := do
  let di := (← inode ip).din
  let n := src.length
  if di.size.toNat < off ∨ (off + n) % UINT < off then return none
  else if MAXFILE * BSIZE < off + n then return none
  else
    let off ← writeLoop ip n off src
    if 0 < n ∧ (← inode ip).din.size.toNat < off then
      setDin ip fun di => { di with size := BitVec.ofNat 32 off }
      iupdate ip
    return some n

end DuckoUnix.Fs
