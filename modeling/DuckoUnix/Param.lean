import Mathlib.Data.Nat.Notation

/-!
# Constants of the kernel

`param.h`, and the sizes of the on-disk format in `fs.h`.
-/

namespace DuckoUnix

/-- maximum number of processes -/
def NPROC : ℕ := 64
/-- maximum number of active i-nodes -/
def NINODE : ℕ := 100
/-- device number of file system root disk -/
def ROOTDEV : ℕ := 1
/-- max exec arguments -/
def MAXARG : ℕ := 32
/-- max # of blocks any FS op writes -/
def MAXOPBLOCKS : ℕ := 10
/-- max data blocks in on-disk log -/
def LOGSIZE : ℕ := MAXOPBLOCKS * 3
/-- size of disk block cache -/
def NBUF : ℕ := MAXOPBLOCKS * 3
/-- size of file system in blocks -/
def FSSIZE : ℕ := 1000

theorem nproc_pos : 0 < NPROC := by decide

theorem one_lt_nproc : 1 < NPROC := by decide

theorem nbuf_pos : 0 < NBUF := by decide

theorem one_lt_nbuf : 1 < NBUF := by decide

/-- `nlog` of `mkfs.c`: the number of log blocks it writes into the superblock. -/
def nlog : ℕ := LOGSIZE

/-- root i-number -/
def ROOTINO : ℕ := 1
/-- block size -/
def BSIZE : ℕ := 512

end DuckoUnix
