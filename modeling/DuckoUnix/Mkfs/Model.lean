import DuckoUnix.Fs.Names
import DuckoUnix.Fs.Store

/-!
# `mkfs`

`mkfs.c` builds the image of a file system in a file of the host: it writes 1000 blocks of zeroes and
the super block, appends to the root directory and to the files with `iappend`, and writes the free
map at the end. Inodes and blocks are handed out by two counters that no code compares with the size
of the region they go to. A read past the end of the image file ends `mkfs`, and so does a failed
assertion; the host serves every other request.
-/

namespace DuckoUnix.Mkfs

open Lib Fs

/-- How `mkfs` ends if not with `exit(0)`: with `exit(1)`, or by a failed assertion. -/
inductive Exit
  | failed
  | abort
  deriving DecidableEq

/-- The image file and the counters. -/
structure Image where
  img : Disk
  /-- the sectors that the image file has -/
  nsect : ℕ
  freeinode : ℕ
  freeblock : ℕ
  /-- the inode numbers that `ialloc` has returned; no code reads this or the next two fields -/
  inodes : List ℕ
  /-- the blocks that `winode` has written -/
  winodes : List ℕ
  /-- the blocks that `iappend` has assigned -/
  assigned : List ℕ

abbrev M := Prog Image Exit

/-! ## Sectors and inodes -/

/-- The sector at the offset `sec * BSIZE`, which is an `uint`. -/
def sector (sec : ℕ) : ℕ := sec % 2 ^ 23

def wsect (sec : ℕ) (buf : Bytes) : M Unit :=
  modify fun s => { s with
    img := Function.update s.img (sector sec) buf
    nsect := max s.nsect (sector sec + 1) }

def rsect (sec : ℕ) : M Bytes := do
  let s ← get
  if sector sec < s.nsect then return s.img (sector sec) else throw .failed

def winode (inum : ℕ) (ip : Dinode) : M Unit := do
  let bn := IBLOCK inum .mkfs
  let buf ← rsect bn
  wsect bn (putDinode buf (inum % IPB) ip)
  modify fun s => { s with winodes := s.winodes ++ [bn] }

def rinode (inum : ℕ) : M Dinode := do
  let buf ← rsect (IBLOCK inum .mkfs)
  return getDinode buf (inum % IPB)

def ialloc (type : BitVec 16) : M ℕ := do
  let inum := (← get).freeinode
  modify fun s => { s with freeinode := inum + 1, inodes := s.inodes ++ [inum] }
  winode inum { Dinode.zero with type := type, nlink := 1 }
  return inum

/-! ## Blocks -/

/-- The free map of `balloc(used)`: the loop sets the first `used` bits. -/
def bitmap : ℕ → Bytes
  | 0 => fun _ => 0
  | used + 1 => setBit (bitmap used) used

def balloc (used : ℕ) : M Unit :=
  if used < BSIZE * 8 then wsect Superblock.mkfs.bmapstart (bitmap used) else throw .abort

def Image.next (s : Image) : Image :=
  { s with freeblock := s.freeblock + 1, assigned := s.assigned ++ [s.freeblock] }

def nextBlock : M ℕ := do
  let s ← get
  set s.next
  return s.freeblock

/-- `if(xint(din.addrs[k]) == 0) din.addrs[k] = xint(freeblock++)` -/
def setIfZero (din : Dinode) (k : ℕ) : M Dinode :=
  if (din.addr k).toNat = 0 then do
    let b ← nextBlock
    return din.setAddr k (BitVec.ofNat 32 b)
  else return din

/-- The entry of the indirect block `ind` for block `fbn`, which is set if it is 0. -/
def indirectEntry (ind fbn : ℕ) : M ℕ := do
  let indirect ← rsect ind
  let x := (getAddr indirect (fbn - NDIRECT)).toNat
  if x = 0 then do
    let b ← nextBlock
    wsect ind (putAddr indirect (fbn - NDIRECT) (BitVec.ofNat 32 b))
    return (BitVec.ofNat 32 b).toNat
  else return x

/-- Block `x` of the image that has block `fbn` of the file, and the inode with it. -/
def blockOf (din : Dinode) (fbn : ℕ) : M (Dinode × ℕ) :=
  if fbn < NDIRECT then do
    let din ← setIfZero din fbn
    return (din, (din.addr fbn).toNat)
  else do
    let din ← setIfZero din NDIRECT
    let x ← indirectEntry (din.addr NDIRECT).toNat fbn
    return (din, x)

/-- The loop of `iappend`; the first argument bounds the iterations. Returns the inode and the offset
behind the last byte. -/
def appendLoop : ℕ → Dinode → ℕ → List (BitVec 8) → M (Dinode × ℕ)
  | 0, din, off, _ => return (din, off)
  | k + 1, din, off, p =>
    if p = [] then return (din, off)
    else if off / BSIZE < MAXFILE then do
      let (din, x) ← blockOf din (off / BSIZE)
      let n1 := min p.length ((off / BSIZE + 1) * BSIZE - off)
      let buf ← rsect x
      wsect x (blit buf (off - off / BSIZE * BSIZE) (p.take n1))
      appendLoop k din (off + n1) (p.drop n1)
    else throw .abort

def iappend (inum : ℕ) (p : List (BitVec 8)) : M Unit := do
  let din ← rinode inum
  let (din, off) ← appendLoop p.length din din.size.toNat p
  winode inum { din with size := BitVec.ofNat 32 off }

/-! ## The program -/

/-- A file on the command line: its name, and what the calls of `read` return before one returns 0;
none if it cannot be opened. -/
structure Input where
  name : List (BitVec 8)
  /-- a string ends at its first NUL -/
  noNul : 0 ∉ name
  reads : Option (List (List (BitVec 8)))
  deriving DecidableEq

def Input.data (f : Input) : List (BitVec 8) := (f.reads.getD []).flatten

/-- The name without a leading `_`. -/
def Input.stored (f : Input) : List (BitVec 8) :=
  if f.name.head? = some 95 then f.name.tail else f.name

def entry (inum : ℕ) (name : List (BitVec 8)) : List (BitVec 8) :=
  (Dirent.mk (BitVec.ofNat 16 inum) (strncpy name DIRSIZ)).bytes

/-- `while((cc = read(fd, buf, sizeof(buf))) > 0) iappend(inum, buf, cc)` -/
def copyIn (inum : ℕ) : List (List (BitVec 8)) → M Unit
  | [] => return
  | buf :: reads => do
    iappend inum buf
    copyIn inum reads

/-- The body of the loop over the command line. -/
def addFile (rootino : ℕ) (f : Input) : M Unit :=
  if 47 ∈ f.name then throw .abort
  else match f.reads with
    | none => throw .failed
    | some reads => do
      let inum ← ialloc T_FILE
      iappend rootino (entry inum f.stored)
      copyIn inum reads

def addFiles (rootino : ℕ) : List Input → M Unit
  | [] => return
  | f :: files => do
    addFile rootino f
    addFiles rootino files

/-- `for(i = 0; i < FSSIZE; i++) wsect(i, zeroes)` -/
def zeroAll : ℕ → M Unit
  | 0 => return
  | n + 1 => do
    zeroAll n
    wsect n fun _ => 0

def sbBytes (sb : Superblock) : Bytes :=
  putArray (fun _ => 0) 0 4
    [sb.size, sb.nblocks, sb.ninodes, sb.nlog, sb.logstart, sb.inodestart, sb.bmapstart]

/-- The root directory with its first two entries; returns its number. -/
def makeRoot : M ℕ := do
  let rootino ← ialloc T_DIR
  if rootino = ROOTINO then do
    iappend rootino (entry rootino [46])
    iappend rootino (entry rootino [46, 46])
    return rootino
  else throw .abort

/-- The size of the root directory is rounded up, and the free map is written. -/
def finish (rootino : ℕ) : M Unit := do
  let din ← rinode rootino
  winode rootino { din with size := BitVec.ofNat 32 ((din.size.toNat / BSIZE + 1) * BSIZE) }
  let s ← get
  balloc s.freeblock

/-- `main` of `mkfs.c`, called with the image file and `files`. -/
-- it begins with a thousand steps that no proof should take one by one
@[irreducible]
def mkfs (files : List Input) : M Unit := do
  zeroAll FSSIZE
  wsect 1 (sbBytes .mkfs)
  let rootino ← makeRoot
  addFiles rootino files
  finish rootino

/-- The image file has been created, and `freeblock` is set to `nmeta`. -/
def start : Image where
  img _ _ := 0
  nsect := 0
  freeinode := 1
  freeblock := nmeta
  inodes := []
  winodes := []
  assigned := []

end DuckoUnix.Mkfs
