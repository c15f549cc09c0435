import Mathlib.Data.Finset.Card
import Mathlib.Data.Finset.Range
import DuckoUnix.Fs.Store

/-!
# Where things lie on the disk

What has to be true of a super block for the parts of the disk to lie apart: inode blocks, then the
free map, then the data area, which ends with the file system. The super block that `mkfs` writes is
such a one. The rules for `bread` and `log_write` are here too.
-/

namespace DuckoUnix.Fs

open Lib Function

variable {sb : Superblock} {fssize b c i : ℕ} {s : Store} {E : Halt → Prop} {ip jp : Ip}

/-- The number of inodes that the inode blocks have room for. -/
def Superblock.nino (sb : Superblock) : ℕ := (sb.bmapstart - sb.inodestart) * IPB

/-- The first block of the data area. -/
def Superblock.nmeta (sb : Superblock) : ℕ := sb.size - sb.nblocks

/-- The parts of the disk lie apart, and the driver lets the kernel have all of them. -/
structure Layout (sb : Superblock) (fssize : ℕ) : Prop where
  ninodes : sb.ninodes ≤ sb.nino
  pos : 0 < sb.size
  map : ∀ b < sb.size, BBLOCK b sb < sb.nmeta
  size : sb.size ≤ fssize
  int : sb.size + BPB ≤ 2 ^ 31

theorem layout_mkfs : Layout .mkfs FSSIZE where
  ninodes := by decide
  pos := by decide
  map b hb := by
    have hb : b < 1000 := hb
    show b / 4096 + 58 < 59
    omega
  size := Nat.le_refl _
  int := by decide

/-- The data area. -/
def Data (sb : Superblock) (b : ℕ) : Prop := sb.nmeta ≤ b ∧ b < sb.size

theorem Superblock.nmeta_le (sb : Superblock) : sb.nmeta ≤ sb.size := Nat.sub_le _ _

theorem IBLOCK_lt (hi : i < sb.nino) : IBLOCK i sb < sb.bmapstart := by
  unfold Superblock.nino IPB at hi
  unfold IBLOCK IPB
  omega

theorem le_BBLOCK (b : ℕ) (sb : Superblock) : sb.bmapstart ≤ BBLOCK b sb := Nat.le_add_left _ _

theorem IBLOCK_ne_BBLOCK (hi : i < sb.nino) : IBLOCK i sb ≠ BBLOCK b sb := by
  have := IBLOCK_lt hi
  have := le_BBLOCK b sb
  omega

theorem BBLOCK_inj (h : BBLOCK b sb = BBLOCK c sb) (h' : b % BPB = c % BPB) : b = c := by
  unfold BBLOCK at h
  have hdiv : b / BPB = c / BPB := Nat.add_right_cancel h
  rw [← Nat.div_add_mod b BPB, ← Nat.div_add_mod c BPB, hdiv, h']

namespace Layout

variable (L : Layout sb fssize)
include L

theorem lt (hb : b < sb.size) : b < fssize := Nat.lt_of_lt_of_le hb L.size

theorem BBLOCK_lt (hb : b < sb.size) : BBLOCK b sb < fssize :=
  Nat.lt_of_lt_of_le (Nat.lt_of_lt_of_le (L.map b hb) sb.nmeta_le) L.size

theorem ne_BBLOCK (hb : Data sb b) (hc : c < sb.size) : b ≠ BBLOCK c sb := by
  have := L.map c hc
  have := hb.1
  omega

theorem ne_IBLOCK (hb : Data sb b) (hi : i < sb.nino) : b ≠ IBLOCK i sb := by
  have := L.map b hb.2
  have := IBLOCK_lt hi
  have := le_BBLOCK b sb
  have := hb.1
  omega

theorem ne_zero (hb : Data sb b) : b ≠ 0 := by
  have := L.map b hb.2
  have := hb.1
  omega

theorem IBLOCK_lt_fssize (hi : i < sb.nino) : IBLOCK i sb < fssize := by
  have := L.BBLOCK_lt L.pos
  have := IBLOCK_lt hi
  have := le_BBLOCK 0 sb
  omega

theorem toNat_ofNat (hb : b < sb.size) : (BitVec.ofNat 32 b).toNat = b := by
  rw [BitVec.toNat_ofNat]
  have := L.int
  exact Nat.mod_eq_of_lt (by omega)

end Layout

/-! ## Blocks and inodes in memory -/

/-- The state after a `log_write`. -/
def Store.write (s : Store) (b : ℕ) (m : Bytes) : Store :=
  { s with disk := update s.disk b m, logged := s.logged ++ [b] }

theorem wp_bread {Q : Bytes → Store → Prop} (hb : b < s.fssize) (h : Q (s.disk b) s) :
    wp E (bread b) Q s := by
  unfold bread
  rw [wp_bind, wp_get]
  dsimp only
  rw [if_neg (Nat.not_le.mpr hb)]
  exact h

theorem wp_log_write {m : Bytes} {Q : Unit → Store → Prop} (hop : 0 < s.outstanding)
    (h : Q () (s.write b m)) : wp E (log_write b m) Q s := by
  unfold log_write
  rw [wp_bind, wp_get]
  dsimp only
  rw [if_neg (Nat.not_lt.mpr hop)]
  exact h

theorem wp_panic {α : Type} {e : Panic} {Q : α → Store → Prop} (h : E (e, s)) :
    wp E (panic e) Q s := h

/-- The store with another inode in place `ip` of the cache. -/
def Store.put (s : Store) (ip : Ip) (e : Inode) : Store :=
  { s with icache := update s.icache ip e }

@[simp] theorem put_self {e : Inode} : (s.put ip e).icache ip = e := update_self _ _ _

theorem put_of_ne {e : Inode} (h : jp ≠ ip) : (s.put ip e).icache jp = s.icache jp :=
  update_of_ne h _ _

theorem wp_inode {Q : Inode → Store → Prop} : wp E (inode ip) Q s ↔ Q (s.icache ip) s := Iff.rfl

theorem wp_setInode {f : Inode → Inode} {Q : Unit → Store → Prop} :
    wp E (setInode ip f) Q s ↔ Q () (s.put ip (f (s.icache ip))) := Iff.rfl

theorem wp_setDin {f : Dinode → Dinode} {Q : Unit → Store → Prop} : wp E (setDin ip f) Q s ↔
    Q () (s.put ip { s.icache ip with din := f (s.icache ip).din }) := Iff.rfl

end DuckoUnix.Fs
