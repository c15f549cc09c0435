import Mathlib.Data.Fintype.Pi
import Mathlib.Data.List.OfFn
import DuckoUnix.Lib.Bytes
import DuckoUnix.Param

/-!
# The format of the disk

`fs.h`: the super block, inodes, indirect blocks, the free bit map and directory entries as bytes of
512-byte blocks. `mkfs` and the kernel both read and write them through the functions of this module.
Where the parts of the disk lie is what the super block `sb` says.
-/

namespace DuckoUnix.Fs

open Lib Function

/-- The blocks of the file system. -/
abbrev Disk := ℕ → Bytes

/-! ## Layout -/

/-- block numbers in an inode -/
def NDIRECT : ℕ := 12
/-- block numbers in an indirect block -/
def NINDIRECT : ℕ := 128
/-- largest file, in blocks -/
def MAXFILE : ℕ := NDIRECT + NINDIRECT
/-- inodes per block -/
def IPB : ℕ := 8
/-- bitmap bits per block -/
def BPB : ℕ := BSIZE * 8
/-- longest name in a directory -/
def DIRSIZ : ℕ := 14
/-- the number of inodes that `mkfs` makes -/
def NINODES : ℕ := 200

def ninodeblocks : ℕ := NINODES / IPB + 1
def nbitmap : ℕ := FSSIZE / (BSIZE * 8) + 1
/-- `nmeta` of `mkfs.c`: the blocks before the data blocks -/
def nmeta : ℕ := 2 + nlog + ninodeblocks + nbitmap

structure Superblock where
  size : ℕ
  nblocks : ℕ
  ninodes : ℕ
  nlog : ℕ
  logstart : ℕ
  inodestart : ℕ
  bmapstart : ℕ
  deriving DecidableEq

/-- The super block that `mkfs` writes. -/
def Superblock.mkfs : Superblock where
  size := FSSIZE
  nblocks := FSSIZE - nmeta
  ninodes := NINODES
  nlog := DuckoUnix.nlog
  logstart := 2
  inodestart := 2 + DuckoUnix.nlog
  bmapstart := 2 + DuckoUnix.nlog + ninodeblocks

/-- Block containing inode `i`. -/
def IBLOCK (i : ℕ) (sb : Superblock) : ℕ := i / IPB + sb.inodestart

/-- Block of the free map containing the bit for block `b`. -/
def BBLOCK (b : ℕ) (sb : Superblock) : ℕ := b / BPB + sb.bmapstart

/-! ## Integers -/

def get16 (m : Bytes) (off : ℕ) : BitVec 16 := BitVec.ofNat 16 (getLE m off 2)
def get32 (m : Bytes) (off : ℕ) : BitVec 32 := BitVec.ofNat 32 (getLE m off 4)
def put16 (m : Bytes) (off : ℕ) (v : BitVec 16) : Bytes := putLE m off 2 v.toNat
def put32 (m : Bytes) (off : ℕ) (v : BitVec 32) : Bytes := putLE m off 4 v.toNat

section Integers

variable {m : Bytes} {off off' : ℕ}

theorem ofNat_toNat_mod16 (v : BitVec 16) : BitVec.ofNat 16 (v.toNat % 256 ^ 2) = v := by
  rw [Nat.mod_eq_of_lt (show v.toNat < 256 ^ 2 from v.isLt), BitVec.ofNat_toNat, BitVec.setWidth_eq]

theorem ofNat_toNat_mod32 (v : BitVec 32) : BitVec.ofNat 32 (v.toNat % 256 ^ 4) = v := by
  rw [Nat.mod_eq_of_lt (show v.toNat < 256 ^ 4 from v.isLt), BitVec.ofNat_toNat, BitVec.setWidth_eq]

theorem get32_put32 {v : BitVec 32} : get32 (put32 m off v) off = v := by
  unfold get32 put32
  rw [getLE_putLE, ofNat_toNat_mod32]

theorem get16_congr {m' : Bytes} (h : ∀ i, off ≤ i → i < off + 2 → m i = m' i) :
    get16 m off = get16 m' off := by
  unfold get16
  rw [getLE_congr h]

theorem get32_congr {m' : Bytes} (h : ∀ i, off ≤ i → i < off + 4 → m i = m' i) :
    get32 m off = get32 m' off := by
  unfold get32
  rw [getLE_congr h]

end Integers

/-! ## Inodes -/

/-- The type of a free inode. -/
def T_FREE : BitVec 16 := 0
def T_DIR : BitVec 16 := 1
def T_FILE : BitVec 16 := 2
def T_DEV : BitVec 16 := 3

structure Dinode where
  type : BitVec 16
  major : BitVec 16
  minor : BitVec 16
  nlink : BitVec 16
  size : BitVec 32
  addrs : Fin (NDIRECT + 1) → BitVec 32
  deriving DecidableEq

def Dinode.zero : Dinode := ⟨0, 0, 0, 0, 0, fun _ => 0⟩

/-- The fields of an inode that are not about its contents. -/
structure Attr where
  type : BitVec 16
  major : BitVec 16
  minor : BitVec 16
  nlink : BitVec 16
  deriving DecidableEq

def Dinode.attr (di : Dinode) : Attr := ⟨di.type, di.major, di.minor, di.nlink⟩

theorem Dinode.attr_eq_iff {di di' : Dinode} (hsize : di.size = di'.size)
    (haddrs : di.addrs = di'.addrs) : di.attr = di'.attr ↔ di = di' := by
  refine ⟨fun h => ?_, fun h => by rw [h]⟩
  obtain ⟨_, _, _, _, _, _⟩ := di
  obtain ⟨_, _, _, _, _, _⟩ := di'
  simp_all [Dinode.attr]

/-- The inode with other attributes. -/
def Dinode.setAttr (di : Dinode) (a : Attr) : Dinode :=
  { di with type := a.type, major := a.major, minor := a.minor, nlink := a.nlink }

/-- The inode in place `k` of a block of inodes. -/
def getDinode (m : Bytes) (k : ℕ) : Dinode where
  type := get16 m (64 * k)
  major := get16 m (64 * k + 2)
  minor := get16 m (64 * k + 4)
  nlink := get16 m (64 * k + 6)
  size := get32 m (64 * k + 8)
  addrs j := get32 m (64 * k + 12 + j * 4)

/-- Store an inode in place `k` of a block of inodes. -/
def putDinode (m : Bytes) (k : ℕ) (di : Dinode) : Bytes :=
  let m := put16 m (64 * k) di.type
  let m := put16 m (64 * k + 2) di.major
  let m := put16 m (64 * k + 4) di.minor
  let m := put16 m (64 * k + 6) di.nlink
  let m := put32 m (64 * k + 8) di.size
  putArray m (64 * k + 12) 4 (List.ofFn fun j => (di.addrs j).toNat)

/-- Inode `i` on the disk. -/
def dinode (sb : Superblock) (d : Disk) (i : ℕ) : Dinode := getDinode (d (IBLOCK i sb)) (i % IPB)

/-- The disk with inode `i` replaced. -/
def setDinode (sb : Superblock) (d : Disk) (i : ℕ) (di : Dinode) : Disk :=
  update d (IBLOCK i sb) (putDinode (d (IBLOCK i sb)) (i % IPB) di)

section Dinode

variable {m m' : Bytes} {k k' i j : ℕ} {di : Dinode} {d d' : Disk} {sb : Superblock}

theorem putDinode_outside (h : i < 64 * k ∨ 64 * k + 64 ≤ i) : putDinode m k di i = m i := by
  unfold putDinode put16 put32
  rcases h with h | h
  · rw [putArray_of_lt (by omega), putLE_of_lt (by omega), putLE_of_lt (by omega),
      putLE_of_lt (by omega), putLE_of_lt (by omega), putLE_of_lt (by omega)]
  · have hlen : (List.ofFn fun j => (di.addrs j).toNat).length = 13 := List.length_ofFn
    rw [putArray_of_le (by rw [hlen]; omega), putLE_of_le (by omega), putLE_of_le (by omega),
      putLE_of_le (by omega), putLE_of_le (by omega), putLE_of_le (by omega)]

theorem getDinode_congr (h : ∀ i, 64 * k ≤ i → i < 64 * k + 64 → m i = m' i) :
    getDinode m k = getDinode m' k := by
  unfold getDinode
  rw [get16_congr fun i hi hi' => h i (by omega) (by omega),
    get16_congr fun i hi hi' => h i (by omega) (by omega),
    get16_congr fun i hi hi' => h i (by omega) (by omega),
    get16_congr fun i hi hi' => h i (by omega) (by omega),
    get32_congr fun i hi hi' => h i (by omega) (by omega)]
  congr 1
  funext j
  have hj : j.val < 13 := j.isLt
  exact get32_congr fun i hi hi' => h i (by omega) (by omega)

theorem getDinode_putDinode_of_ne (h : k' ≠ k) :
    getDinode (putDinode m k di) k' = getDinode m k' :=
  getDinode_congr fun i hi hi' => putDinode_outside (by omega)

theorem getDinode_putDinode : getDinode (putDinode m k di) k = di := by
  have haddr : ∀ j : Fin (NDIRECT + 1),
      get32 (putDinode m k di) (64 * k + 12 + j * 4) = di.addrs j := by
    intro j
    have hj : j.val < (List.ofFn fun j => (di.addrs j).toNat).length := by
      rw [List.length_ofFn]
      exact j.isLt
    unfold get32 putDinode
    rw [getLE_putArray hj, List.getElem_ofFn, ofNat_toNat_mod32]
  have hmeta : getDinode (putDinode m k di) k =
      ⟨di.type, di.major, di.minor, di.nlink, di.size, fun j => get32 (putDinode m k di)
        (64 * k + 12 + j * 4)⟩ := by
    unfold getDinode get16
    congr 1
    all_goals
      unfold putDinode put16 put32
      simp (disch := omega) only [getLE_putArray_of_le, getLE_putLE_of_disjoint, getLE_putLE,
        ofNat_toNat_mod16]
    unfold get32
    simp (disch := omega) only [getLE_putArray_of_le, getLE_putLE, ofNat_toNat_mod32]
  rw [hmeta]
  congr 1
  exact funext haddr

theorem dinode_setDinode :
    dinode sb (setDinode sb d i di) j = if j = i then di else dinode sb d j := by
  unfold dinode setDinode
  by_cases hblock : IBLOCK j sb = IBLOCK i sb
  · rw [hblock, update_self]
    by_cases e : j = i
    · rw [if_pos e, e, getDinode_putDinode]
    · rw [if_neg e, getDinode_putDinode_of_ne]
      unfold IBLOCK IPB at *
      omega
  · have hne : j ≠ i := fun e => hblock (by rw [e])
    rw [update_of_ne hblock, if_neg hne]

theorem setDinode_of_ne {b : ℕ} (h : b ≠ IBLOCK i sb) : setDinode sb d i di b = d b :=
  update_of_ne h _ _

theorem dinode_congr (h : d' (IBLOCK i sb) = d (IBLOCK i sb)) : dinode sb d' i = dinode sb d i := by
  unfold dinode
  rw [h]

end Dinode

/-! ## Indirect blocks and the bit map -/

/-- Entry `j` of an indirect block. -/
def getAddr (m : Bytes) (j : ℕ) : BitVec 32 := get32 m (4 * j)

def putAddr (m : Bytes) (j : ℕ) (v : BitVec 32) : Bytes := put32 m (4 * j) v

theorem getAddr_putAddr {m : Bytes} {j k : ℕ} {v : BitVec 32} :
    getAddr (putAddr m j v) k = if k = j then v else getAddr m k := by
  unfold getAddr putAddr
  by_cases h : k = j
  · rw [if_pos h, h, get32_put32]
  · rw [if_neg h]
    unfold get32 put32
    rw [getLE_putLE_of_disjoint (by omega)]

def bit (m : Bytes) (i : ℕ) : Bool := (m (i / 8)).getLsbD (i % 8)

/-- `data[i/8] |= 1 << (i % 8)` -/
def setBit (m : Bytes) (i : ℕ) : Bytes :=
  update m (i / 8) (m (i / 8) ||| (1#8 <<< (i % 8)))

/-- `data[i/8] &= ~(1 << (i % 8))` -/
def clearBit (m : Bytes) (i : ℕ) : Bytes :=
  update m (i / 8) (m (i / 8) &&& ~~~(1#8 <<< (i % 8)))

/-- Block `b` is marked in use. -/
def inUse (sb : Superblock) (d : Disk) (b : ℕ) : Bool := bit (d (BBLOCK b sb)) (b % BPB)

section Bits

variable {m : Bytes} {i j : ℕ}

/-- The mask for bit `i`, read at bit `j` of the same byte. -/
theorem mask_getLsbD (h : j / 8 = i / 8) : (1#8 <<< (i % 8)).getLsbD (j % 8) = decide (j = i) := by
  rw [BitVec.getLsbD_shiftLeft, BitVec.getLsbD_one, Bool.eq_iff_iff]
  simp only [Bool.and_eq_true, Bool.not_eq_true', decide_eq_true_eq, decide_eq_false_iff_not]
  omega

theorem bit_setBit : bit (setBit m i) j = (decide (j = i) || bit m j) := by
  unfold bit setBit
  by_cases hbyte : j / 8 = i / 8
  · rw [hbyte, update_self, BitVec.getLsbD_or, mask_getLsbD hbyte, Bool.or_comm]
  · have hne : j ≠ i := fun e => hbyte (by rw [e])
    rw [update_of_ne hbyte, decide_eq_false hne, Bool.false_or]

theorem bit_clearBit : bit (clearBit m i) j = (!decide (j = i) && bit m j) := by
  unfold bit clearBit
  by_cases hbyte : j / 8 = i / 8
  · have hj : j % 8 < 8 := Nat.mod_lt _ (by decide)
    rw [hbyte, update_self, BitVec.getLsbD_and, BitVec.getLsbD_not, mask_getLsbD hbyte,
      decide_eq_true hj, Bool.true_and, Bool.and_comm]
  · have hne : j ≠ i := fun e => hbyte (by rw [e])
    rw [update_of_ne hbyte, decide_eq_false hne, Bool.not_false, Bool.true_and]

theorem clearBit_setBit (h : bit m i = false) : clearBit (setBit m i) i = m := by
  funext k
  by_cases hk : k = i / 8
  · unfold clearBit setBit
    subst hk
    rw [update_self, update_self]
    refine BitVec.eq_of_getLsbD_eq fun j hj => ?_
    have hmask := mask_getLsbD (i := i) (j := 8 * (i / 8) + j) (by omega)
    rw [show (8 * (i / 8) + j) % 8 = j by omega] at hmask
    rw [BitVec.getLsbD_and, BitVec.getLsbD_or, BitVec.getLsbD_not, decide_eq_true hj, Bool.true_and,
      hmask]
    by_cases e : 8 * (i / 8) + j = i
    · have hbit : (m (i / 8)).getLsbD j = false := by
        unfold bit at h
        rwa [show i % 8 = j by omega] at h
      rw [hbit, decide_eq_true e]
      rfl
    · rw [decide_eq_false e, Bool.or_false, Bool.not_false, Bool.and_true]
  · unfold clearBit setBit
    rw [update_of_ne hk, update_of_ne hk]

end Bits

/-! ## Directory entries -/

/-- `struct dirent`; the name has `DIRSIZ` bytes. -/
structure Dirent where
  inum : BitVec 16
  name : List (BitVec 8)
  deriving DecidableEq

/-- `sizeof(struct dirent)` -/
def DIRENT : ℕ := 16

/-- A directory entry from its 16 bytes. -/
def getDirent (bs : List (BitVec 8)) : Dirent where
  inum := bs.getD 1 0 ++ bs.getD 0 0
  name := bs.drop 2

def Dirent.bytes (de : Dirent) : List (BitVec 8) :=
  [de.inum.setWidth 8, (de.inum >>> 8).setWidth 8] ++ de.name

theorem getDirent_bytes (de : Dirent) : getDirent de.bytes = de := by
  obtain ⟨inum, name⟩ := de
  have hinum : (inum >>> 8).setWidth 8 ++ inum.setWidth 8 = inum := by
    ext k hk
    rw [BitVec.getElem_append]
    split_ifs with h
    · rw [BitVec.getElem_setWidth, BitVec.getLsbD_eq_getElem hk]
    · rw [BitVec.getElem_setWidth, BitVec.getLsbD_ushiftRight, BitVec.getLsbD_eq_getElem (by omega)]
      congr 1
      omega
  exact congrArg (Dirent.mk · name) hinum

end DuckoUnix.Fs
