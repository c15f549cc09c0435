import Mathlib.Order.Interval.Finset.Nat
import DuckoUnix.Mkfs.Tree

/-!
# Where `mkfs` writes, and holes in the image

Nothing in `mkfs` compares the number of files with the number of inodes. The 199th file gets the
inode number 200, which the kernel never looks at, and the 207th one is written over the free map.
The size of the root directory is rounded up to whole blocks, and by one block too many if its
entries fill their blocks.
-/

namespace DuckoUnix.Mkfs

open Lib Fs

variable {s s' : Image} {files more : List Input} {inum fbn k sec : ℕ} {din : Dinode}
  {p : List (BitVec 8)}

/-! ## The counters in every run -/

/-- What appending does to the counters, whatever it writes to. -/
structure Counts (s s' : Image) : Prop where
  freeinode : s'.freeinode = s.freeinode
  inodes : s'.inodes = s.inodes
  freeblock : s.freeblock ≤ s'.freeblock

theorem Counts.refl : Counts s s := ⟨rfl, rfl, Nat.le_refl _⟩

theorem Counts.trans {s'' : Image} (h : Counts s s') (h' : Counts s' s'') : Counts s s'' :=
  ⟨h'.freeinode.trans h.freeinode, h'.inodes.trans h.inodes, h.freeblock.trans h'.freeblock⟩

theorem rsect_counts {Q : Bytes → Image → Prop} (h : ∀ m, Q m s) :
    wp (fun _ => True) (rsect sec) Q s := by
  unfold rsect
  rw [wp_bind, wp_get]
  exact wp_ite (fun _ => h _) fun _ => trivial

theorem wsect_counts {m : Bytes} : wp (fun _ => True) (wsect sec m) (fun _ s' => Counts s s') s :=
  ⟨rfl, rfl, Nat.le_refl _⟩

theorem setIfZero_counts : wp (fun _ => True) (setIfZero din k) (fun _ s' => Counts s s') s :=
  wp_setIfZero (fun _ => .refl) fun _ => ⟨rfl, rfl, Nat.le_succ _⟩

theorem indirectEntry_counts :
    wp (fun _ => True) (indirectEntry k fbn) (fun _ s' => Counts s s') s := by
  unfold indirectEntry
  rw [wp_bind]
  refine rsect_counts fun m => ?_
  dsimp only
  refine wp_ite (fun _ => ?_) fun _ => .refl
  exact ⟨rfl, rfl, Nat.le_succ _⟩

theorem blockOf_counts : wp (fun _ => True) (blockOf din fbn) (fun _ s' => Counts s s') s := by
  unfold blockOf
  refine wp_ite (fun _ => ?_) fun _ => ?_
  · rw [wp_bind]
    exact wp_mono setIfZero_counts fun _ _ h => h
  · rw [wp_bind]
    refine wp_mono setIfZero_counts fun _ s₁ h => ?_
    rw [wp_bind]
    exact wp_mono indirectEntry_counts fun _ _ h' => h.trans h'

theorem appendLoop_counts {n off : ℕ} :
    wp (fun _ => True) (appendLoop n din off p) (fun _ s' => Counts s s') s := by
  induction n generalizing din off p s with
  | zero => exact Counts.refl
  | succ n ih =>
    unfold appendLoop
    refine wp_ite (fun _ => Counts.refl) fun _ => wp_ite (fun _ => ?_) fun _ => trivial
    rw [wp_bind]
    refine wp_mono blockOf_counts fun r s₁ h => ?_
    obtain ⟨din', x⟩ := r
    dsimp only
    rw [wp_bind]
    refine rsect_counts fun m => ?_
    rw [wp_bind]
    refine wp_mono wsect_counts fun _ s₂ h' => ?_
    exact wp_mono ih fun _ _ h'' => (h.trans h').trans h''

theorem winode_counts : wp (fun _ => True) (winode inum din) (fun _ s' => Counts s s') s := by
  unfold winode
  dsimp only
  rw [wp_bind]
  refine rsect_counts fun m => ?_
  exact ⟨rfl, rfl, Nat.le_refl _⟩

theorem iappend_counts : wp (fun _ => True) (iappend inum p) (fun _ s' => Counts s s') s := by
  unfold iappend rinode
  rw [wp_bind, wp_bind]
  refine rsect_counts fun m => ?_
  rw [wp_pure, wp_bind]
  refine wp_mono appendLoop_counts fun r s₁ h => ?_
  obtain ⟨din', off⟩ := r
  exact wp_mono winode_counts fun _ _ h' => h.trans h'

theorem copyIn_counts {reads : List (List (BitVec 8))} :
    wp (fun _ => True) (copyIn inum reads) (fun _ s' => Counts s s') s := by
  induction reads generalizing s with
  | nil => exact Counts.refl
  | cons buf reads ih =>
    unfold copyIn
    rw [wp_bind]
    exact wp_mono iappend_counts fun _ s₁ h => wp_mono ih fun _ _ h' => h.trans h'

/-- `n` inodes have been handed out. -/
structure Numbered (n : ℕ) (s s' : Image) : Prop where
  freeinode : s'.freeinode = s.freeinode + n
  inodes : s'.inodes = s.inodes ++ List.range' s.freeinode n
  freeblock : s.freeblock ≤ s'.freeblock

theorem Numbered.trans {n m : ℕ} {s'' : Image} (h : Numbered n s s') (h' : Numbered m s' s'') :
    Numbered (n + m) s s'' where
  freeinode := by
    rw [h'.freeinode, h.freeinode, Nat.add_assoc]
  inodes := by
    rw [h'.inodes, h.inodes, h.freeinode, List.append_assoc, List.range'_append_1]
  freeblock := h.freeblock.trans h'.freeblock

theorem Numbered.counts {n : ℕ} {s'' : Image} (h : Numbered n s s') (h' : Counts s' s'') :
    Numbered n s s'' :=
  ⟨h'.freeinode.trans h.freeinode, h'.inodes.trans h.inodes, h.freeblock.trans h'.freeblock⟩

theorem ialloc_numbered {type : BitVec 16} : wp (fun _ => True) (ialloc type)
    (fun i s' => i = s.freeinode ∧ Numbered 1 s s') s := by
  unfold ialloc
  rw [wp_bind, wp_get, wp_bind, wp_modify, wp_bind]
  refine wp_mono winode_counts fun _ s₁ h => ?_
  exact ⟨rfl, h.freeinode, h.inodes, h.freeblock⟩

theorem addFile_numbered {f : Input} :
    wp (fun _ => True) (addFile inum f) (fun _ s' => Numbered 1 s s') s := by
  unfold addFile
  refine wp_ite (fun _ => trivial) fun _ => ?_
  cases f.reads with
  | none => trivial
  | some reads =>
    dsimp only
    rw [wp_bind]
    refine wp_mono ialloc_numbered ?_
    rintro i s₁ ⟨-, h₁⟩
    rw [wp_bind]
    refine wp_mono iappend_counts fun _ s₂ h₂ => ?_
    exact wp_mono copyIn_counts fun _ s₃ h₃ => h₁.counts (h₂.trans h₃)

theorem addFiles_numbered :
    wp (fun _ => True) (addFiles inum files) (fun _ s' => Numbered files.length s s') s := by
  induction files generalizing s with
  | nil => exact ⟨rfl, (List.append_nil _).symm, Nat.le_refl _⟩
  | cons f files ih =>
    unfold addFiles
    rw [wp_bind]
    refine wp_mono addFile_numbered fun _ s₁ h => wp_mono ih fun _ s' h' => ?_
    rw [List.length_cons, Nat.add_comm]
    exact h.trans h'

theorem makeRoot_numbered :
    wp (fun _ => True) makeRoot (fun i s' => i = ROOTINO ∧ Numbered 1 s s') s := by
  unfold makeRoot
  rw [wp_bind]
  refine wp_mono ialloc_numbered ?_
  rintro i s₁ ⟨-, h₁⟩
  refine wp_ite (fun hroot => ?_) fun _ => trivial
  rw [wp_bind]
  refine wp_mono iappend_counts fun _ s₂ h₂ => ?_
  rw [wp_bind]
  refine wp_mono iappend_counts fun _ s₃ h₃ => ?_
  exact ⟨hroot, h₁.counts (h₂.trans h₃)⟩

/-- The map is written last, so it says what the counter says. -/
theorem finish_counts : wp (fun _ => True) (finish inum) (fun _ s' => Counts s s' ∧
    s'.img Superblock.mkfs.bmapstart = bitmap s'.freeblock) s := by
  unfold finish rinode
  rw [wp_bind, wp_bind]
  refine rsect_counts fun m => ?_
  rw [wp_pure, wp_bind]
  refine wp_mono winode_counts fun _ s₁ h => ?_
  rw [wp_bind, wp_get]
  have hsec : sector Superblock.mkfs.bmapstart = Superblock.mkfs.bmapstart := sector_eq (by decide)
  unfold balloc wsect
  refine wp_ite (fun _ => ?_) fun _ => trivial
  rw [wp_modify, hsec]
  refine ⟨⟨h.freeinode, h.inodes, h.freeblock⟩, ?_⟩
  dsimp only
  rw [Function.update_self]

theorem zeroAll_counts {n : ℕ} : wp (fun _ => True) (zeroAll n) (fun _ s' => Counts s s') s := by
  induction n with
  | zero => exact Counts.refl
  | succ n ih =>
    unfold zeroAll
    rw [wp_bind]
    exact wp_mono ih fun _ s₁ h => wp_mono wsect_counts fun _ _ h' => h.trans h'

theorem mkfs_counts : wp (fun _ => True) (mkfs files) (fun _ s' =>
    Numbered (files.length + 1) s s' ∧
      s'.img Superblock.mkfs.bmapstart = bitmap s'.freeblock) s := by
  unfold mkfs
  generalize FSSIZE = n
  rw [wp_bind]
  refine wp_mono zeroAll_counts fun _ s₁ h₁ => ?_
  rw [wp_bind]
  refine wp_mono wsect_counts fun _ s₂ h₂ => ?_
  rw [wp_bind]
  refine wp_mono makeRoot_numbered ?_
  rintro i s₃ ⟨-, h₃⟩
  rw [wp_bind]
  refine wp_mono addFiles_numbered fun _ s₄ h₄ => ?_
  refine wp_mono finish_counts ?_
  rintro _ s' ⟨h₅, hmap⟩
  have h := h₁.trans h₂
  have hnum : Numbered 1 s s₃ := by
    refine ⟨?_, ?_, h.freeblock.trans h₃.freeblock⟩
    · rw [h₃.freeinode, h.freeinode]
    · rw [h₃.inodes, h.inodes, h.freeinode]
  rw [Nat.add_comm]
  exact ⟨(hnum.trans h₄).counts h₅, hmap⟩

/-! ## The regions -/

/-- Every inode has a number that the kernel uses, inodes are written to inode blocks, blocks are
assigned from the data area, and the map marks the blocks below `freeblock`. -/
structure Regions (s : Image) : Prop where
  inodes : ∀ i ∈ s.inodes, i < Superblock.mkfs.ninodes
  winodes : ∀ b ∈ s.winodes, Superblock.mkfs.inodestart ≤ b ∧ b < Superblock.mkfs.bmapstart
  assigned : ∀ b ∈ s.assigned, nmeta ≤ b ∧ b < Superblock.mkfs.size
  bitmap : ∀ b < BPB, inUse .mkfs s.img b = true ↔ b < s.freeblock

theorem Formatted.regions (h : Formatted files s) (hn : files.length ≤ 198) : Regions s where
  inodes i hi := by
    rw [h.inodes, List.mem_range'_1] at hi
    show i < 200
    omega
  winodes := h.fresh.winodes
  assigned := h.fresh.assigned
  bitmap b hb := by
    rw [← h.disk, inUse_marked hb, decide_eq_true_iff]

/-- What is known of an image that `mkfs` has finished. -/
theorem formatted_of_ok (hs : s = start) (h : mkfs files s = .ok ((), s')) (hn : files.length ≤ 206) :
    Formatted files s' := by
  have hspec : wp (fun _ => True) (mkfs files) _ s := mkfs_wp hs hn (Or.inr fun _ => trivial)
  exact wp_ok hspec h

/-- `mkfs` finishes if the files are not too many and not too large. -/
theorem mkfs_returns (hn : files.length ≤ 206) (hgood : ∀ f ∈ files, f.Good)
    (hneed : nmeta + 4 + need files ≤ FSSIZE) : ∃ s', mkfs files start = .ok ((), s') := by
  generalize hs : start = s
  have hspec : wp (fun _ => False) (mkfs files) _ s := mkfs_wp hs.symm hn (Or.inl ⟨hgood, hneed⟩)
  obtain ⟨_, s', hs', -⟩ := wp_returns hspec
  exact ⟨s', hs'⟩

/-- The regions do not overlap if and only if there are at most `NINODES - 2` files. -/
theorem regions_iff (h : mkfs files start = .ok ((), s)) :
    Regions s ↔ files.length ≤ NINODES - 2 := by
  generalize hs : start = s₀ at h
  refine ⟨fun hr => ?_, fun hn => ?_⟩
  · have hspec : wp (fun _ => True) (mkfs files) _ s₀ := mkfs_counts
    have hnum := (wp_ok hspec h).1.inodes
    have hlast : files.length + 1 ∈ s.inodes := by
      rw [hnum, ← hs]
      refine List.mem_append_right _ (List.mem_range'_1.mpr ?_)
      show 1 ≤ _ ∧ _ < 1 + _
      omega
    have hlt : files.length + 1 < 200 := hr.inodes _ hlast
    show files.length ≤ 198
    omega
  · have hn : files.length ≤ 198 := hn
    exact (formatted_of_ok hs.symm h (by omega)).regions hn

def emptyFile : Input := ⟨[97], by decide, some []⟩

theorem emptyFile_good : emptyFile.Good := ⟨by decide, rfl, by decide⟩

theorem need_replicate (n : ℕ) : need (List.replicate n emptyFile) = 2 * n := by
  induction n with
  | zero => rfl
  | succ n ih =>
    rw [List.replicate_succ, need, ih]
    have hone : cost 0 (emptyFile.reads.getD []) = 0 := rfl
    omega

theorem mkfs_replicate {n : ℕ} (hn : n ≤ 206) :
    ∃ s, mkfs (List.replicate n emptyFile) start = .ok ((), s) := by
  refine mkfs_returns (by rw [List.length_replicate]; exact hn) (fun f hf => ?_) ?_
  · rw [List.eq_of_mem_replicate hf]
    exact emptyFile_good
  · have hmeta : nmeta + 4 + 412 ≤ FSSIZE := by decide
    rw [need_replicate]
    omega

/-- Without files. -/
theorem regions_empty : ∃ s, mkfs [] start = .ok ((), s) ∧ Regions s := by
  obtain ⟨s, hs⟩ := mkfs_replicate (Nat.zero_le 206)
  exact ⟨s, hs, (regions_iff hs).mpr (by decide)⟩

/-- The last of 199 empty files gets the inode number 200. -/
theorem regions_overlap : ∃ s, mkfs (List.replicate 199 emptyFile) start = .ok ((), s) ∧
    200 ∈ s.inodes ∧ ¬ Regions s := by
  obtain ⟨s, hs⟩ := mkfs_replicate (by decide : 199 ≤ 206)
  have hinodes : s.inodes = List.range' 1 200 :=
    (formatted_of_ok rfl hs (by rw [List.length_replicate]; decide)).inodes
  have hmem : 200 ∈ s.inodes := by
    rw [hinodes]
    decide
  exact ⟨s, hs, hmem, fun hr => absurd (hr.inodes 200 hmem) (by decide)⟩

/-! ## Holes -/

/-- A file with more than `n` blocks has taken that many blocks from the data area. -/
theorem Holds.blocks_le {di : Dinode} {c : List (BitVec 8)} {n : ℕ} (h : Rest s)
    (hi : inum < Superblock.mkfs.nino) (hdi : dinode .mkfs s.marked inum = di)
    (ht : di.type ≠ T_FREE) (hc : Holds s.marked di c) (hn : n * BSIZE < c.length) :
    nmeta + n + 1 ≤ s.freeblock := by
  have hsize := hc.size
  have href : ∀ bn, refs .mkfs (dinode .mkfs s.marked) s.marked (inum, slotOf bn) =
      blockAt s.marked di bn := by
    intro bn
    rw [refs_of hi (by rw [hdi]; exact ht), hdi]
    rfl
  have hne : ∀ bn ∈ Finset.range (n + 1), blockAt s.marked di bn ≠ 0 := by
    intro bn hbn
    have hle : bn * BSIZE ≤ n * BSIZE :=
      Nat.mul_le_mul_right _ (Nat.le_of_lt_succ (Finset.mem_range.mp hbn))
    exact hc.noHole bn (by omega)
  have hcard := Finset.card_le_card_of_injOn (s := Finset.range (n + 1))
    (t := Finset.Ico nmeta s.freeblock) (blockAt s.marked di) (fun bn hbn => ?_)
    fun b hb b' hb' e => ?_
  · rw [Finset.card_range, Nat.card_Ico] at hcard
    omega
  · have hbn := hne bn hbn
    rw [← href] at hbn ⊢
    obtain ⟨hdata, huse⟩ := h.own.exact.marked hbn
    rw [inUse_marked (lt_BPB hdata.2)] at huse
    exact Finset.mem_coe.mpr (Finset.mem_Ico.mpr ⟨hdata.1, of_decide_eq_true huse⟩)
  · have hb' := hne b' hb'
    rw [← href, ← href] at e
    rw [← href] at hb'
    exact slotOf_inj (congrArg Prod.snd (h.own.exact.inj hb' e))

theorem addFiles_append : addFiles inum (files ++ more) =
    (do addFiles inum files; addFiles inum more) := by
  induction files with
  | nil => rfl
  | cons f files ih =>
    rw [List.cons_append, addFiles, addFiles, ih, bind_assoc]

/-- With more files than the inode blocks have room for, the root directory has seven blocks. -/
theorem freeblock_le (hs : s = start) (hn : 207 ≤ files.length) :
    wp (fun _ => True) (mkfs files) (fun _ s' => 66 ≤ s'.freeblock) s := by
  unfold mkfs
  generalize hsize : FSSIZE = n
  rw [wp_bind]
  refine zeroAll_wp (Nat.le_of_eq hsize.symm) (by rw [hs]; rfl) (by rw [hs]; rfl) ?_
  rw [← hsize, wp_bind]
  refine wp_wsect rfl (by decide) ?_
  rw [wp_bind]
  refine wp_mono (makeRoot_wp (by rw [hs]; rfl)) ?_
  rintro _ s₁ ⟨rfl, hmade, -⟩
  have hlen : (files.take 206).length = 206 := by
    rw [List.length_take]
    omega
  rw [wp_bind, ← List.take_append_drop 206 files, addFiles_append, wp_bind]
  refine wp_mono (addFiles_wp hmade (by rw [hlen]; exact Nat.le_refl _)
    (Or.inr fun _ => trivial)) ?_
  rintro _ s₂ ⟨hmade₂, -⟩
  rw [List.nil_append] at hmade₂
  have hroot := hmade₂.tree.node ROOTINO (by decide)
  obtain ⟨hattr, htype, hc⟩ := hroot
  have hlow : nmeta + 6 + 1 ≤ s₂.freeblock := by
    refine hc.blocks_le hmade₂.tree.rest (by decide) rfl ?_ ?_
    · rw [← hattr] at htype
      exact htype
    · rw [rootData_length, hlen]
      decide
  refine wp_mono addFiles_numbered fun _ s₃ h₃ => ?_
  refine wp_mono finish_counts ?_
  rintro _ s' ⟨h₄, -⟩
  have hmeta : nmeta + 6 + 1 = 66 := rfl
  have := h₃.freeblock
  have := h₄.freeblock
  omega

theorem bitmap_zero {used : ℕ} (h : used ≤ 8 * k) : bitmap used k = 0 := by
  refine BitVec.eq_of_getLsbD_eq fun j hj => ?_
  have hbit := bit_bitmap used (8 * k + j)
  unfold bit at hbit
  rw [show (8 * k + j) / 8 = k by omega, show (8 * k + j) % 8 = j by omega,
    decide_eq_false (by omega)] at hbit
  exact hbit.trans BitVec.getLsbD_zero.symm

theorem bitmap_full {used : ℕ} (h : 8 * k + 8 ≤ used) : bitmap used k = 255 := by
  refine BitVec.eq_of_getLsbD_eq fun j hj => ?_
  have hbit := bit_bitmap used (8 * k + j)
  unfold bit at hbit
  rw [show (8 * k + j) / 8 = k by omega, show (8 * k + j) % 8 = j by omega,
    decide_eq_true (by omega)] at hbit
  have hall : ∀ j < 8, (255 : BitVec 8).getLsbD j = true := by decide
  rw [hbit, hall j hj]

theorem bitmap_ne_zero {used : ℕ} (h : 8 * k < used) : bitmap used k ≠ 0 := by
  intro e
  have hbit := bit_bitmap used (8 * k)
  unfold bit at hbit
  rw [show 8 * k / 8 = k by omega, e, decide_eq_true h] at hbit
  exact Bool.false_ne_true (BitVec.getLsbD_zero.symm.trans hbit)

/-- The free map, read as an inode, has a hole. -/
theorem bitmap_hole {used : ℕ} (h : 66 ≤ used) (d : Disk) :
    ¬ NoHole d (getDinode (bitmap used) 0) := by
  intro hn
  have hsize : (getDinode (bitmap used) 0).size.toNat = getLE (bitmap used) 8 4 := by
    have hlt := getLE_lt (bitmap used) 8 4
    show (BitVec.ofNat 32 (getLE (bitmap used) 8 4)).toNat = _
    rw [BitVec.toNat_ofNat]
    exact Nat.mod_eq_of_lt hlt
  have hbyte : (bitmap used 8).toNat ≠ 0 := fun e => bitmap_ne_zero (by omega) (BitVec.eq_of_toNat_eq e)
  by_cases hbig : used ≤ 96
  · -- its first address is 0
    refine hn 0 ?_ ?_
    · rw [hsize, Nat.zero_mul]
      show 0 < (bitmap used 8).toNat + 256 * _
      omega
    · have haddr : (getDinode (bitmap used) 0).addr 0 = 0 := by
        show BitVec.ofNat 32 (getLE (bitmap used) 12 4) = 0
        have hzero : getLE (bitmap used) 12 4 = getLE (fun _ => 0) 12 4 :=
          getLE_congr fun i hi _ => bitmap_zero (by omega)
        rw [hzero]
        rfl
      show refAt d _ 0 = 0
      rw [refAt_direct (Nat.zero_le _), haddr]
      rfl
  · -- it is larger than any file
    refine hn MAXFILE ?_ ?_
    · have hfull : getLE (bitmap used) 8 4 = getLE (fun _ => 255) 8 4 :=
        getLE_congr fun i _ hi => bitmap_full (by omega)
      rw [hsize, hfull]
      decide
    · show refAt d _ 141 = 0
      exact if_neg (by decide) |>.trans (if_pos (Or.inr (by decide)))

/-- Inode `i` has an address for each of its blocks. -/
def Whole (s : Image) (i : ℕ) : Prop := NoHole s.img (dinode .mkfs s.img i)

theorem Formatted.whole_file {i : ℕ} (h : Formatted files s) (hn : files.length ≤ 206) (hi : 2 ≤ i)
    (hlt : i < files.length + 2) : Whole s i := by
  obtain ⟨j, rfl⟩ := Nat.exists_eq_add_of_le' hi
  have hnode := h.node (j + 2) (by show j + 2 < 208; omega) (by unfold ROOTINO; omega)
  rw [node_file, List.getElem?_eq_getElem (by omega)] at hnode
  exact hnode.2.2.noHole

theorem rootSize_toNat (hn : files.length ≤ 206) : (BitVec.ofNat 32 (rootSize files)).toNat =
    ((files.length + 2) * 16 / 512 + 1) * 512 := by
  have hlen : (rootData files).length = (files.length + 2) * 16 := rootData_length
  unfold rootSize
  rw [hlen, BitVec.toNat_ofNat]
  exact Nat.mod_eq_of_lt (by unfold BSIZE; omega)

/-- The size of the root directory fits its blocks unless the entries fill them. -/
theorem Formatted.whole_root (h : Formatted files s) (hn : files.length ≤ 206) :
    Whole s ROOTINO ↔ ¬ 32 ∣ files.length + 2 := by
  obtain ⟨di, -, hc, hroot⟩ := h.root
  have hsize : di.size.toNat = (files.length + 2) * 16 := hc.size.trans rootData_length
  unfold Whole NoHole
  rw [hroot, rootSize_toNat hn]
  refine ⟨fun hw hdvd => ?_, fun hdvd bn hbn => ?_⟩
  · refine hw ((files.length + 2) * 16 / 512) ?_ ((blockAt_congr rfl).trans (hc.beyond _ ?_))
    · unfold BSIZE
      omega
    · rw [hsize]
      unfold BSIZE
      omega
  · rw [show blockAt s.img { di with size := BitVec.ofNat 32 (rootSize files) } bn =
      blockAt s.img di bn from blockAt_congr rfl]
    refine hc.noHole bn ?_
    rw [hsize]
    unfold BSIZE at *
    omega

/-- The image is free of holes if and only if the inode blocks have room for the files and the entries
of the root directory do not fill its blocks. -/
theorem noHole_iff (h : mkfs files start = .ok ((), s)) :
    (∀ i, 1 ≤ i → i < s.freeinode → NoHole s.img (dinode .mkfs s.img i)) ↔
      files.length ≤ 206 ∧ ¬ 32 ∣ files.length + 2 := by
  generalize hs : start = s₀ at h
  have hcounts : wp (fun _ => True) (mkfs files) _ s₀ := mkfs_counts
  obtain ⟨hnum, hmap⟩ := wp_ok hcounts h
  have hfree : s.freeinode = 1 + (files.length + 1) := by
    rw [hnum.freeinode, ← hs]
    rfl
  refine ⟨fun hw => ?_, fun ⟨hn, hdvd⟩ i hi hlt => ?_⟩
  · have hn : files.length ≤ 206 := by
      by_contra hbig
      have hspec : wp (fun _ => True) (mkfs files) _ s₀ := freeblock_le hs.symm (by omega)
      have hdin : dinode .mkfs s.img 208 = getDinode (bitmap s.freeblock) 0 := by
        rw [← hmap]
        rfl
      have hhole := hw 208 (by decide) (by omega)
      rw [hdin] at hhole
      exact bitmap_hole (wp_ok hspec h) s.img hhole
    have hform := formatted_of_ok hs.symm h hn
    exact ⟨hn, (hform.whole_root hn).mp (hw ROOTINO (by decide) (by unfold ROOTINO; omega))⟩
  · have hform := formatted_of_ok hs.symm h hn
    by_cases hroot : i = ROOTINO
    · rw [hroot]
      exact (hform.whole_root hn).mpr hdvd
    · exact hform.whole_file hn (by unfold ROOTINO at hroot; omega) (by omega)

/-- Without files. -/
theorem noHole_empty : ∃ s, mkfs [] start = .ok ((), s) ∧
    ∀ i, 1 ≤ i → i < s.freeinode → NoHole s.img (dinode .mkfs s.img i) := by
  obtain ⟨s, hs⟩ := mkfs_replicate (Nat.zero_le 206)
  exact ⟨s, hs, (noHole_iff hs).mpr ⟨by decide, by decide⟩⟩

/-- 30 empty files and the first two entries fill one block of the root directory, which gets the size
of two blocks. -/
theorem root_hole : ∃ s, mkfs (List.replicate 30 emptyFile) start = .ok ((), s) ∧
    ¬ NoHole s.img (dinode .mkfs s.img ROOTINO) := by
  obtain ⟨s, hs⟩ := mkfs_replicate (by decide : 30 ≤ 206)
  have hn : (List.replicate 30 emptyFile).length ≤ 206 := by decide
  have hform := formatted_of_ok rfl hs hn
  refine ⟨s, hs, fun hw => (hform.whole_root hn).mp hw ?_⟩
  decide

end DuckoUnix.Mkfs
