import DuckoUnix.Inode.ReadWrite

/-!
# The file system without files

What `mkfs` writes if it is given no files: the root directory is inode 1, its entries are `.` and `..`
in the first block of the data area, and its size is one block.
-/

namespace DuckoUnix.Inode

open Lib Fs

def rootDin : Dinode :=
  { Dinode.zero with
    type := T_DIR
    nlink := 1
    size := 512
    addrs := fun k => if k.val = 0 then 59 else 0 }

def rootEntries : Bytes := fun k =>
  if k = 0 ∨ k = 16 then 1 else if k = 2 ∨ k = 18 ∨ k = 19 then 46 else 0

/-- The disk after `mkfs`. -/
def rootDisk : Disk := fun b =>
  if b = 32 then putDinode (fun _ => 0) 1 rootDin
  else if b = 58 then fun k => if k < 7 then 255 else if k = 7 then 15 else 0
  else if b = 59 then rootEntries
  else fun _ => 0

def rootBoot : Store := Store.boot .mkfs FSSIZE rootDisk

theorem rootDisk_dinode {i : ℕ} (hi : i < Superblock.mkfs.nino) :
    dinode .mkfs rootDisk i = if i = 1 then rootDin else .zero := by
  have hzero : ∀ k, getDinode (fun _ => 0) k = Dinode.zero := fun _ => rfl
  have hlt : IBLOCK i .mkfs < 58 := IBLOCK_lt hi
  unfold dinode rootDisk
  by_cases hb : IBLOCK i .mkfs = 32
  · have hb' : i / 8 + 32 = 32 := hb
    rw [if_pos hb]
    by_cases e : i = 1
    · rw [if_pos e, e]
      exact getDinode_putDinode
    · rw [if_neg e, getDinode_putDinode_of_ne, hzero]
      show i % 8 ≠ 1
      omega
  · have hi : i ≠ 1 := fun e => hb (by rw [e]; rfl)
    rw [if_neg hb, if_neg (Nat.ne_of_lt hlt), if_neg (by omega), if_neg hi, hzero]

theorem rootDisk_one : dinode .mkfs rootDisk 1 = rootDin := rootDisk_dinode (by decide)

theorem rootDisk_inUse : ∀ b < 1000, inUse .mkfs rootDisk b = decide (b < 60) := by decide +kernel

theorem rootDisk_bare {i : ℕ} (hi : i < Superblock.mkfs.nino) (hne : i ≠ 1) :
    (dinode .mkfs rootDisk i).Bare := by
  rw [rootDisk_dinode hi, if_neg hne]
  exact Or.inl rfl

section OneDirectory

variable {d : Disk} (hroot : dinode .mkfs d 1 = rootDin)
  (hbare : ∀ {i}, i < Superblock.mkfs.nino → i ≠ 1 → (dinode .mkfs d i).Bare)
  (huse : ∀ b < 1000, inUse .mkfs d b = decide (b < 60))

include hroot hbare

/-- Only the root directory has a block. -/
theorem oneDirectory_refs (x : ℕ × ℕ) :
    refs .mkfs (dinode .mkfs d) d x = if x = (1, 0) then 59 else 0 := by
  obtain ⟨i, k⟩ := x
  by_cases hi : i < Superblock.mkfs.nino
  · by_cases e : i = 1
    · subst e
      rw [refs_of hi (by rw [hroot]; decide), hroot]
      by_cases hk : k ≤ NDIRECT
      · rw [refAt_direct hk]
        have hall : ∀ k ≤ NDIRECT, (rootDin.addr k).toNat = if (1, k) = (1, 0) then 59 else 0 := by
          decide
        exact hall k hk
      · rw [refAt_none (Nat.not_le.mp hk) (by decide), if_neg]
        rintro e
        cases e
        exact hk (Nat.zero_le _)
    · rw [if_neg fun h => e (congrArg Prod.fst h)]
      exact refs_bare (hbare hi e)
  · have hne : (i, k) ≠ (1, 0) := by
      rintro e
      cases e
      exact hi (by decide)
    rw [if_neg hne]
    exact if_neg fun h => hi h.1

include huse

theorem oneDirectory_owned : Owned .mkfs (dinode .mkfs d) d := by
  have hrefs := oneDirectory_refs hroot hbare
  refine ⟨⟨fun {x} h => ?_, fun {x y} h h' => ?_, fun {b} _ ha hu => ?_⟩, fun b hb => ?_⟩
  · have hx := hrefs x
    rw [hx] at h
    have e : x = (1, 0) := by
      by_contra e
      exact h (if_neg e)
    rw [if_pos e] at hx
    rw [hx]
    exact ⟨⟨by decide, by decide⟩, huse 59 (by decide)⟩
  · rw [hrefs] at h
    rw [hrefs x, hrefs y] at h'
    by_cases e : x = (1, 0)
    · by_cases e' : y = (1, 0)
      · rw [e, e']
      · rw [if_pos e, if_neg e'] at h'
        cases h'
    · exact absurd (if_neg e) h
  · have hu' : decide (b < 60) = true := (huse b ha.2).symm.trans hu
    have hlt : 59 ≤ b := ha.1
    have hb : b = 59 := by
      have := of_decide_eq_true hu'
      omega
    exact ⟨(1, 0), (hrefs (1, 0)).trans hb.symm⟩
  · have hlt : b < 59 := hb
    exact (huse b (by omega)).trans (decide_eq_true (by omega))

/-- The kernel has started, and inodes have been read. -/
theorem oneDirectory_consistent {s : Store} (hsb : s.sb = .mkfs) (hfs : s.fssize = FSSIZE)
    (hd : s.disk = d) (hallocs : s.readAllocs = 0)
    (hinum : ∀ ip, 0 < (s.icache ip).ref → (s.icache ip).inum < Superblock.mkfs.nino)
    (hunique : ∀ ip jp, 0 < (s.icache ip).ref → 0 < (s.icache jp).ref →
      (s.icache ip).inum = (s.icache jp).inum → ip = jp)
    (hvalid : ∀ ip, 0 < (s.icache ip).ref → (s.icache ip).valid = true →
      (s.icache ip).din = dinode .mkfs d (s.icache ip).inum ∧ (s.icache ip).din.type ≠ T_FREE)
    (hempty : ∀ i < Superblock.mkfs.nino, i ≠ 1 → (dinode .mkfs d i).size = 0) : Consistent s := by
  have howned := oneDirectory_owned hroot hbare huse
  refine ⟨⟨?_, ?_, ?_, hunique, fun ip hr hv => ?_, fun ip hr hv => ?_, fun ip hr hv ht => ?_⟩,
    fun i hi ht => ?_, fun ip hr hv => ?_, hallocs⟩
  · rw [hsb, hfs]
    exact layout_mkfs
  · rw [hsb, hd]
    exact howned
  · rw [hsb]
    exact hinum
  · rw [hsb, hd, (hvalid ip hr hv).1]
  · rw [hsb, hd, (hvalid ip hr hv).1]
  · rw [hsb, hd, ← (hvalid ip hr hv).1] at ht
    exact absurd ht (hvalid ip hr hv).2
  · rw [hsb] at hi
    rw [hsb, hd] at ht ⊢
    by_cases e : i = 1
    · rw [e, hroot]
      intro bn hbn
      have hbn' : bn * 512 < 512 := hbn
      have h0 : bn = 0 := by omega
      rw [h0]
      exact (by decide : blockAt (fun _ _ => 0) rootDin 0 ≠ 0)
    · intro bn hbn
      rw [hempty i hi e] at hbn
      exact absurd hbn (Nat.not_lt_zero _)
  · rw [hsb, hd, (hvalid ip hr hv).1]
    refine ⟨rfl, ?_⟩
    rw [← (hvalid ip hr hv).1]
    exact (hvalid ip hr hv).2

end OneDirectory

theorem rootBoot_consistent : Consistent rootBoot := by
  have hnone : ∀ ip, ¬ 0 < (rootBoot.icache ip).ref := fun ip h => Nat.lt_irrefl 0 h
  refine oneDirectory_consistent rootDisk_one rootDisk_bare rootDisk_inUse rfl rfl rfl
    rfl (fun ip hr => absurd hr (hnone ip)) (fun ip jp hr => absurd hr (hnone ip))
    (fun ip hr => absurd hr (hnone ip)) fun i hi e => ?_
  rw [rootDisk_dinode hi, if_neg e]
  rfl

/-! ## The root directory in memory -/

/-- A process has locked the root directory in a transaction. -/
def rootLocked : Store := { rootBoot.put ip0 ⟨1, 1, true, true, rootDin⟩ with outstanding := 1 }

theorem rootLocked_entry {ip : Ip} (hr : 0 < (rootLocked.icache ip).ref) :
    ip = ip0 ∧ rootLocked.icache ip = ⟨1, 1, true, true, rootDin⟩ := by
  by_cases e : ip = ip0
  · rw [e]
    exact ⟨rfl, rfl⟩
  · have hc : rootLocked.icache ip = rootBoot.icache ip := put_of_ne e
    rw [hc] at hr
    exact absurd hr (Nat.lt_irrefl 0)

theorem rootLocked_consistent : Consistent rootLocked := by
  have hd : dinode rootBoot.sb rootBoot.disk 1 = rootDin := rootDisk_one
  have hrep := rootBoot_consistent.rep
  have hfits : Fits rootBoot ip0 ⟨1, 1, true, true, rootDin⟩ := by
    refine ⟨fun _ => by decide, fun _ jp _ hr => absurd hr (Nat.lt_irrefl 0), fun _ _ => ?_, fun _ _ => ?_,
      fun _ _ => ?_⟩
    · rw [hd]
    · rw [hd]
    · rw [hd]
      exact ⟨rfl, by decide⟩
  exact ((hrep.put hfits rfl rfl).outstanding_set (rfl : 1 = 1)).consistent

end DuckoUnix.Inode
