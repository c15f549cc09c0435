import DuckoUnix.Lib.Thread
import DuckoUnix.Fs.Names
import DuckoUnix.Fs.Store

/-!
# The code on inodes

The part of `fs.c` that locks inodes, passes references around and walks directories. Other processes
may run in between, so the code of a process is a thread of operations: a section under `icache.lock`,
an operation on a sleep-lock, or code on the contents of one inode, which its lock protects. What the
operations do is in `Fs`; `T.code` is the code of a process that nobody interrupts.
-/

namespace DuckoUnix.Inode

open Lib Fs

/-- What the code reads of an inode in memory besides its size. -/
structure Fields where
  inum : ℕ
  ref : ℕ
  valid : Bool
  attr : Attr

/-- Operations on inodes. -/
inductive Op : Type → Type 1
  | begin_op : Op Unit
  | end_op : Op Unit
  | iget (inum : ℕ) : Op Ip
  | idup (ip : Ip) : Op Unit
  | acquiresleep (ip : Ip) : Op Unit
  | holdingsleep (ip : Ip) : Op Bool
  | releasesleep (ip : Ip) : Op Unit
  /-- `ip->ref--` under `icache.lock` -/
  | unref (ip : Ip) : Op Unit
  | look (ip : Ip) : Op Fields
  | size (ip : Ip) : Op ℕ
  /-- assign to fields -/
  | setAttr (ip : Ip) (f : Attr → Attr) : Op Unit
  | iupdate (ip : Ip) : Op Unit
  /-- the part of `ilock` that reads the inode from disk -/
  | load (ip : Ip) : Op Unit
  /-- the part of `iput` that frees an inode without links and without other references -/
  | ifree (ip : Ip) : Op Unit
  /-- `ialloc` up to the call of `iget` -/
  | claim (type : BitVec 16) : Op ℕ
  /-- `readi` of an inode that is no device -/
  | readFile (ip : Ip) (off n : ℕ) : Op (Option (List (BitVec 8)))
  /-- `writei` of an inode that is no device -/
  | writeFile (ip : Ip) (src : List (BitVec 8)) (off : ℕ) : Op (Option ℕ)
  | panic {α : Type} (e : Panic) : Op α

/-- What an operation does. -/
def Op.code {α : Type} : Op α → K α
  | .begin_op => Fs.begin_op
  | .end_op => Fs.end_op
  | .iget inum => Fs.iget inum
  | .idup ip => setInode ip fun e => { e with ref := e.ref + 1 }
  | .acquiresleep ip => acquire ip
  | .holdingsleep ip => return (← inode ip).locked
  | .releasesleep ip => release ip
  | .unref ip => setInode ip fun e => { e with ref := e.ref - 1 }
  | .look ip => do
    let e ← inode ip
    return ⟨e.inum, e.ref, e.valid, e.din.attr⟩
  | .size ip => return (← inode ip).din.size.toNat
  | .setAttr ip f => setDin ip fun di => di.setAttr (f di.attr)
  | .iupdate ip => Fs.iupdate ip
  | .load ip => Fs.load ip
  | .ifree ip => Fs.ifree ip
  | .claim type => Fs.claim type
  | .readFile ip off n => Fs.readFile ip off n
  | .writeFile ip src off => Fs.writeFile ip src off
  | .panic e => Fs.panic e

/-- The code of a process. -/
abbrev T := Thread Op

variable {α : Type}

/-- The code, if nobody interrupts it. -/
def T.code (t : T α) : K α := t.alone Op.code

def begin_op : T Unit := Thread.op .begin_op

def end_op : T Unit := Thread.op .end_op

def panic (e : Panic) : T α := Thread.op (.panic e)

def iget (inum : ℕ) : T Ip := Thread.op (.iget inum)

def idup (ip : Ip) : T Ip := do
  Thread.op (.idup ip)
  return ip

def look (ip : Ip) : T Fields := Thread.op (.look ip)

def size (ip : Ip) : T ℕ := Thread.op (.size ip)

def setAttr (ip : Ip) (f : Attr → Attr) : T Unit := Thread.op (.setAttr ip f)

def iupdate (ip : Ip) : T Unit := Thread.op (.iupdate ip)

/-! ## Inodes -/

/-- Lock the given inode. Reads the inode from disk if necessary. -/
def ilock (ip : Ip) : T Unit := do
  if (← look ip).ref < 1 then panic .ilock
  Thread.op (.acquiresleep ip)
  Thread.op (.load ip)

def iunlock (ip : Ip) : T Unit := do
  let holding ← Thread.op (.holdingsleep ip)
  if holding = false ∨ (← look ip).ref < 1 then panic .iunlock
  Thread.op (.releasesleep ip)

/-- Drop a reference to an in-memory inode. -/
def iput (ip : Ip) : T Unit := do
  Thread.op (.acquiresleep ip)
  let e ← look ip
  if e.valid = true ∧ e.attr.nlink = 0 then
    let r := (← look ip).ref
    if r = 1 then Thread.op (.ifree ip)
  Thread.op (.releasesleep ip)
  Thread.op (.unref ip)

def iunlockput (ip : Ip) : T Unit := do
  iunlock ip
  iput ip

def ialloc (type : BitVec 16) : T Ip := do iget (← Thread.op (.claim type))

/-! ## Contents -/

/-- The major number of the console, the one device with functions in `devsw`. -/
def CONSOLE : BitVec 16 := 1

/-- `devsw[major].read` or `devsw[major].write` of the console, which returns `r`. -/
def console (ip : Ip) (r : α) : T α := do
  iunlock ip
  ilock ip
  return r

/-- Read data from inode; none for -1. `input` is what the console would deliver. -/
def readi (ip : Ip) (off n : ℕ) (input : Option (List (BitVec 8))) :
    T (Option (List (BitVec 8))) := do
  let a := (← look ip).attr
  if a.type = T_DEV then
    if a.major = CONSOLE then console ip input else return none
  else Thread.op (.readFile ip off n)

/-- Write data to inode; none for -1. -/
def writei (ip : Ip) (src : List (BitVec 8)) (off : ℕ) : T (Option ℕ) := do
  let a := (← look ip).attr
  if a.type = T_DEV then
    if a.major = CONSOLE then console ip (some src.length) else return none
  else Thread.op (.writeFile ip src off)

/-! ## Directories -/

/-- The directory entry at `off`; `e` is the panic if it cannot be read. -/
def readDirent (dp : Ip) (off : ℕ) (e : Panic) : T Dirent := do
  match ← readi dp off DIRENT none with
  | none => panic e
  | some bs => if bs.length ≠ DIRENT then panic e else return getDirent bs

/-- The loop of `dirlookup` from `off` on; the first argument bounds the iterations. -/
def dirlookupLoop (dp : Ip) (name : List (BitVec 8)) : ℕ → ℕ → T (Option (Ip × ℕ))
  | 0, _ => return none
  | k + 1, off => do
    if off < (← size dp) then
      let de ← readDirent dp off .dirlookupRead
      if de.inum ≠ 0 ∧ namecmp name de.name = 0 then
        return some (← iget de.inum.toNat, off)
      else dirlookupLoop dp name k (off + DIRENT)
    else return none

/-- Look for a directory entry in a directory; returns the inode and the offset of the entry. -/
def dirlookup (dp : Ip) (name : List (BitVec 8)) : T (Option (Ip × ℕ)) := do
  if (← look dp).attr.type ≠ T_DIR then panic .notDir
  dirlookupLoop dp name ((← size dp) / DIRENT + 1) 0

/-- The loop of `dirlink` that looks for an empty entry from `off` on. -/
def emptyDirent (dp : Ip) : ℕ → ℕ → T ℕ
  | 0, off => return off
  | k + 1, off => do
    if off < (← size dp) then
      let de ← readDirent dp off .dirlinkRead
      if de.inum = 0 then return off else emptyDirent dp k (off + DIRENT)
    else return off

/-- Write a new directory entry into the directory `dp`; false for -1. -/
def dirlink (dp : Ip) (name : List (BitVec 8)) (inum : ℕ) : T Bool := do
  match ← dirlookup dp name with
  | some (ip, _) =>
    iput ip
    return false
  | none =>
    let off ← emptyDirent dp ((← size dp) / DIRENT + 1) 0
    let de : Dirent := ⟨BitVec.ofNat 16 inum, strncpy name DIRSIZ⟩
    if (← writei dp de.bytes off) ≠ some DIRENT then panic .dirlink
    return true

/-! ## Paths -/

/-- The loop of `namex`; the first argument bounds the iterations. Returns the inode and, for
`nameiparent`, the name of the last path element. -/
def namexLoop (nameiparent : Bool) :
    ℕ → Ip → List (BitVec 8) → T (Option (Ip × List (BitVec 8)))
  | 0, _, _ => return none
  | k + 1, ip, path => do
    match skipelem path with
    | none =>
      if nameiparent then
        iput ip
        return none
      else return some (ip, [])
    | some (name, path) =>
      ilock ip
      if (← look ip).attr.type ≠ T_DIR then
        iunlockput ip
        return none
      else if nameiparent = true ∧ path = [] then
        iunlock ip
        return some (ip, name)
      else
        match ← dirlookup ip name with
        | none =>
          iunlockput ip
          return none
        | some (next, _) =>
          iunlockput ip
          namexLoop nameiparent k next path

/-- Look up and return the inode for a path name; `cwd` is `myproc()->cwd`. -/
def namex (cwd : Ip) (path : List (BitVec 8)) (nameiparent : Bool) :
    T (Option (Ip × List (BitVec 8))) := do
  let ip ← if path.head? = some slash then iget ROOTINO else idup cwd
  namexLoop nameiparent (path.length + 1) ip path

def namei (cwd : Ip) (path : List (BitVec 8)) : T (Option Ip) := do
  return (← namex cwd path false).map Prod.fst

def nameiparent (cwd : Ip) (path : List (BitVec 8)) : T (Option (Ip × List (BitVec 8))) :=
  namex cwd path true

end DuckoUnix.Inode
