import Mathlib.Data.List.Nodup
import DuckoUnix.Fs.Files

/-!
# Discarding the contents of a file

`itrunc` frees the blocks of the inode, then the blocks of its indirect block, then that block. The
entries of the indirect block stay as they are; it is no longer referred to. Afterwards the inode has
no blocks, and the owners of all other blocks are the same.
-/

namespace DuckoUnix.Fs

open Lib

variable {di : Dinode} {b c i j k : ℕ} {ks : List ℕ} {s s' s'' : Store} {ip : Ip}
  {E : Halt → Prop} {r : ℕ → ℕ}

/-- The blocks `r k` for the `k` in a list have been freed: only the map has changed. -/
structure Freed (r : ℕ → ℕ) (ks : List ℕ) (s s' : Store) : Prop extends Fixed s s' where
  disk : ∀ c, (∀ b < s.sb.size, c ≠ BBLOCK b s.sb) → s'.disk c = s.disk c
  used : ∀ c, inUse s.sb s'.disk c = true ↔
    inUse s.sb s.disk c = true ∧ ∀ k ∈ ks, r k ≠ 0 → r k ≠ c

/-- The blocks `r k` can be freed one after the other. -/
structure Freeable (r : ℕ → ℕ) (ks : List ℕ) (s : Store) : Prop where
  layout : Layout s.sb s.fssize
  op : 0 < s.outstanding
  nodup : ks.Nodup
  data : ∀ k ∈ ks, r k ≠ 0 → Data s.sb (r k) ∧ inUse s.sb s.disk (r k) = true
  inj : ∀ k ∈ ks, ∀ k' ∈ ks, r k ≠ 0 → r k' = r k → k' = k

theorem Freed.nil (r : ℕ → ℕ) (s : Store) : Freed r [] s s :=
  ⟨⟨rfl, rfl, rfl, rfl, rfl⟩, fun _ _ => rfl, fun _ => by simp⟩

theorem Freed.append {ks' : List ℕ} (h : Freed r ks s s') (h' : Freed r ks' s' s'') :
    Freed r (ks ++ ks') s s'' where
  toFixed := h.toFixed.trans h'.toFixed
  disk c hc := by
    rw [h'.disk c (by rw [h.sb]; exact hc), h.disk c hc]
  used c := by
    have h₁ := h.used c
    have h₂ := h'.used c
    rw [h.sb] at h₂
    rw [h₂, h₁, List.forall_mem_append, and_assoc]

theorem freed_one (L : Layout s.sb s.fssize) (hdata : r k ≠ 0 → Data s.sb (r k))
    (hs' : s' = if r k = 0 then s else s.free (r k)) : Freed r [k] s s' := by
  by_cases h0 : r k = 0
  · rw [if_pos h0] at hs'
    subst hs'
    exact ⟨⟨rfl, rfl, rfl, rfl, rfl⟩, fun _ _ => rfl, fun _ => by simp [h0]⟩
  · rw [if_neg h0] at hs'
    subst hs'
    refine ⟨⟨rfl, rfl, rfl, rfl, rfl⟩, fun c hc => freeDisk_of_ne (hc _ (hdata h0).2), fun c => ?_⟩
    rw [Store.free_disk, inUse_freeDisk, Bool.and_eq_true, Bool.not_eq_true', decide_eq_false_iff_not]
    simp only [List.mem_singleton, forall_eq]
    constructor
    · rintro ⟨hne, hu⟩
      exact ⟨hu, fun _ e => hne e.symm⟩
    · rintro ⟨hu, hne⟩
      exact ⟨fun e => hne h0 e.symm, hu⟩

theorem Freeable.drop {ks' : List ℕ} (h : Freeable r (ks ++ ks') s) (hf : Freed r ks s s') :
    Freeable r ks' s' where
  layout := hf.layout h.layout
  op := by
    rw [hf.outstanding]
    exact h.op
  nodup := (List.nodup_append.mp h.nodup).2.1
  data j hj h0 := by
    obtain ⟨hd, hu⟩ := h.data j (List.mem_append_right _ hj) h0
    have hne : ∀ k ∈ ks, r k ≠ 0 → r k ≠ r j := by
      intro k hk _ e
      have := h.inj j (List.mem_append_right _ hj) k (List.mem_append_left _ hk) h0 e
      exact (List.nodup_append.mp h.nodup).2.2 k hk j hj this
    rw [hf.sb]
    exact ⟨hd, (hf.used _).mpr ⟨hu, hne⟩⟩
  inj j hj j' hj' := h.inj j (List.mem_append_right _ hj) j' (List.mem_append_right _ hj')

theorem Freeable.left {ks' : List ℕ} (h : Freeable r (ks ++ ks') s) : Freeable r ks s where
  layout := h.layout
  op := h.op
  nodup := (List.nodup_append.mp h.nodup).1
  data j hj := h.data j (List.mem_append_left _ hj)
  inj j hj j' hj' := h.inj j (List.mem_append_left _ hj) j' (List.mem_append_left _ hj')

theorem Freeable.tail (h : Freeable r (k :: ks) s) (hf : Freed r [k] s s') : Freeable r ks s' :=
  (show Freeable r ([k] ++ ks) s from h).drop hf

theorem Freeable.comp {f : ℕ → ℕ} (hf : ∀ i j, f i = f j → i = j) (h : Freeable r (ks.map f) s) :
    Freeable (fun j => r (f j)) ks s where
  layout := h.layout
  op := h.op
  nodup := List.Nodup.of_map f h.nodup
  data j hj := h.data (f j) (List.mem_map_of_mem hj)
  inj j hj j' hj' h0 e := hf j' j (h.inj (f j) (List.mem_map_of_mem hj) (f j') (List.mem_map_of_mem hj')
    h0 e)

theorem Freed.map {f : ℕ → ℕ} (h : Freed (fun j => r (f j)) ks s s') : Freed r (ks.map f) s s' :=
  ⟨h.toFixed, h.disk, fun c => by rw [h.used c, List.forall_mem_map]⟩

theorem truncIndirect_spec {bp : Bytes} (hr : ∀ j ∈ ks, r j = (getAddr bp j).toNat)
    (h : Freeable r ks s) :
    wp E (truncIndirect bp ks) (fun _ s' => Freed r ks s s' ∧ s'.icache = s.icache) s := by
  induction ks generalizing s with
  | nil => exact ⟨Freed.nil r s, rfl⟩
  | cons k ks ih =>
    unfold truncIndirect
    dsimp only
    have hdata := h.data k List.mem_cons_self
    have hr' := fun j hj => hr j (List.mem_cons_of_mem k hj)
    rw [← hr k List.mem_cons_self]
    by_cases h0 : r k = 0
    · rw [if_neg (not_not.mpr h0)]
      have hone := freed_one (s := s) h.layout (fun h0 => (hdata h0).1) (if_pos h0).symm
      refine wp_mono (ih hr' (h.tail hone)) ?_
      rintro _ s' ⟨hf, hic⟩
      exact ⟨hone.append hf, hic⟩
    · rw [if_pos h0, wp_bind]
      obtain ⟨hd, hu⟩ := hdata h0
      refine wp_mono (bfree_spec (h.layout.BBLOCK_lt hd.2) hu h.op) ?_
      rintro _ s₁ hs₁
      have hone := freed_one (s := s) h.layout (fun _ => hd) (hs₁.trans (if_neg h0).symm)
      refine wp_mono (ih hr' (h.tail hone)) ?_
      rintro _ s' ⟨hf, hic⟩
      exact ⟨hone.append hf, hic.trans (by rw [hs₁]; rfl)⟩

/-- The inode without the block numbers in a list. -/
def Dinode.clear (di : Dinode) (ks : List ℕ) : Dinode :=
  { di with addrs := fun j => if j.val ∈ ks then 0 else di.addrs j }

theorem Dinode.clear_nil : di.clear [] = di := by
  unfold Dinode.clear
  simp

theorem Dinode.clear_cons : (di.setAddr k 0).clear ks = di.clear (k :: ks) := by
  unfold Dinode.clear Dinode.setAddr
  congr 1
  funext j
  simp only [List.mem_cons]
  split_ifs
  all_goals first | rfl | tauto

theorem Dinode.setAddr_self {a : BitVec 32} (h : di.addr k = a) : di.setAddr k a = di := by
  unfold Dinode.setAddr
  congr 1
  funext j
  split_ifs with hj
  · unfold Dinode.addr at h
    rw [dif_pos (hj ▸ j.isLt)] at h
    rw [← h]
    congr 1
    exact Fin.ext hj.symm
  · rfl

/-- The inodes in memory do not count. -/
theorem Freed.put (h : Freed r ks s s') (ip : Ip) (e : Inode) : Freed r ks s (s'.put ip e) :=
  ⟨⟨h.sb, h.fssize, h.outstanding, h.readAllocs, h.stale⟩, h.disk, h.used⟩

theorem truncDirect_spec (hr : ∀ k ∈ ks, r k = ((s.icache ip).din.addr k).toNat)
    (h : Freeable r ks s) :
    wp E (truncDirect ip ks) (fun _ s' => Freed r ks s s' ∧
      s'.icache ip = { s.icache ip with din := (s.icache ip).din.clear ks } ∧
      ∀ jp, jp ≠ ip → s'.icache jp = s.icache jp) s := by
  induction ks generalizing s with
  | nil =>
    refine ⟨Freed.nil r s, ?_, fun _ _ => rfl⟩
    rw [Dinode.clear_nil]
  | cons k ks ih =>
    unfold truncDirect
    rw [wp_bind, wp_inode]
    dsimp only
    have hdata := h.data k List.mem_cons_self
    have hrk := hr k List.mem_cons_self
    rw [← hrk]
    by_cases h0 : r k = 0
    · rw [if_neg (not_not.mpr h0)]
      have hone := freed_one (s := s) h.layout (fun h0 => (hdata h0).1) (if_pos h0).symm
      refine wp_mono (ih (fun k' hk' => hr k' (List.mem_cons_of_mem _ hk')) (h.tail hone)) ?_
      rintro _ s' ⟨hf, hself, hother⟩
      refine ⟨hone.append hf, ?_, hother⟩
      have hzero : (s.icache ip).din.addr k = 0 := by
        refine BitVec.eq_of_toNat_eq ?_
        rw [← hrk, h0]
        rfl
      rw [hself, ← Dinode.clear_cons, Dinode.setAddr_self hzero]
    · rw [if_pos h0, wp_bind]
      obtain ⟨hd, hu⟩ := hdata h0
      refine wp_mono (bfree_spec (h.layout.BBLOCK_lt hd.2) hu h.op) ?_
      rintro _ s₁ hs₁
      have hic₁ : s₁.icache = s.icache := by rw [hs₁]; rfl
      rw [wp_bind, wp_setDin, hic₁]
      have hone := (freed_one (s := s) h.layout (fun _ => hd) (hs₁.trans (if_neg h0).symm)).put ip
        { s.icache ip with din := (s.icache ip).din.setAddr k 0 }
      have hnot : k ∉ ks := (List.nodup_cons.mp h.nodup).1
      refine wp_mono (ih (fun k' hk' => ?_) (h.tail hone)) ?_
      · have hne : ¬ (k' = k ∧ k ≤ NDIRECT) := fun e => hnot (e.1 ▸ hk')
        rw [hr k' (List.mem_cons_of_mem _ hk'), put_self, Dinode.addr_setAddr, if_neg hne]
      · rintro _ s' ⟨hf, hself, hother⟩
        refine ⟨hone.append hf, ?_, fun jp hj => ?_⟩
        · rw [hself, put_self, Dinode.clear_cons]
        · rw [hother jp hj, put_of_ne hj, hic₁]

/-! ## The whole inode -/

/-- What `itrunc` has done to the store. -/
structure Truncated (ip : Ip) (s s' : Store) : Prop extends Fixed s s' where
  sound : Sound s'
  others : ∀ jp, jp ≠ ip → s'.icache jp = s.icache jp
  entry : s'.icache ip =
    { s.icache ip with din := { (s.icache ip).din with size := 0, addrs := fun _ => 0 } }
  dinode : dinode s.sb s'.disk (s.icache ip).inum = (s'.icache ip).din
  inodes : ∀ j < s.sb.nino, j ≠ (s.icache ip).inum → Fs.dinode s.sb s'.disk j = Fs.dinode s.sb s.disk j
  files : ∀ j < s.sb.nino, j ≠ (s.icache ip).inum → (Fs.dinode s.sb s.disk j).type ≠ T_FREE →
    SameFile s.disk s'.disk (Fs.dinode s.sb s.disk j)
  room : nfree s.sb s.disk ≤ nfree s'.sb s'.disk

/-- The slots of an inode in the order in which `itrunc` frees them. -/
def slots : List ℕ :=
  List.range NDIRECT ++ ((List.range NINDIRECT).map (NDIRECT + 1 + ·) ++ [NDIRECT])

theorem mem_slots : k ∈ slots ↔ k < NREF := by
  unfold slots NREF
  simp only [List.mem_append, List.mem_range, List.mem_map, List.mem_singleton]
  constructor
  · rintro (h | ⟨j, hj, rfl⟩ | rfl)
    all_goals omega
  · intro h
    by_cases h₁ : k < NDIRECT
    · exact Or.inl h₁
    · by_cases h₂ : k = NDIRECT
      · exact Or.inr (Or.inr h₂)
      · exact Or.inr (Or.inl ⟨k - (NDIRECT + 1), by omega, by omega⟩)

theorem nodup_slots : slots.Nodup := by
  unfold slots
  refine List.nodup_append.mpr ⟨List.nodup_range, List.nodup_append.mpr ⟨?_, List.nodup_singleton _,
    ?_⟩, ?_⟩
  · exact List.nodup_range.map fun i j h => by omega
  · intro k hk j hj e
    obtain ⟨i, -, rfl⟩ := List.mem_map.mp hk
    rw [List.mem_singleton.mp hj] at e
    omega
  · intro k hk j hj e
    have hk := List.mem_range.mp hk
    rcases List.mem_append.mp hj with hj | hj
    · obtain ⟨i, -, rfl⟩ := List.mem_map.mp hj
      omega
    · rw [List.mem_singleton.mp hj] at e
      omega

theorem refAt_eq_zero {d : Disk} (hk : NREF ≤ k) : refAt d di k = 0 := by
  unfold refAt
  rw [if_neg (by unfold NREF at hk; omega), if_pos (Or.inr hk)]

theorem Editing.freeable (h : Editing s ip) :
    Freeable (refAt s.disk (s.icache ip).din) slots s where
  layout := h.layout
  op := h.op
  nodup := nodup_slots
  data k _ h0 := by
    rw [← h.refs_self] at h0 ⊢
    exact ⟨h.own.data h0, h.own.inUse_ref h0⟩
  inj k _ k' _ h0 e := by
    rw [← h.refs_self] at h0 e
    rw [← h.refs_self] at e
    exact congrArg Prod.snd (h.own.exact.inj h0 e)

theorem refAt_of_bare {d : Disk} (h : di.addrs = fun _ => 0) : refAt d di k = 0 := by
  have haddr : ∀ k, (di.addr k).toNat = 0 := by
    intro k
    unfold Dinode.addr
    split_ifs
    · rw [h]
      rfl
    · rfl
  unfold refAt
  split_ifs
  · exact haddr k
  · rfl
  · next hno => exact absurd (Or.inl (haddr NDIRECT)) hno

namespace Freed

variable (hf : Freed (refAt s.disk (s.icache ip).din) slots s s') (hs : Editing s ip)
include hf hs

theorem disk_data (hc : Data s.sb c) : s'.disk c = s.disk c :=
  hf.disk c fun _ hb => hs.layout.ne_BBLOCK hc hb

omit hs in
theorem disk_inode (hj : j < s.sb.nino) : s'.disk (IBLOCK j s.sb) = s.disk (IBLOCK j s.sb) :=
  hf.disk _ fun _ _ => IBLOCK_ne_BBLOCK hj

theorem sameFile (hj : j < s.sb.nino) (hne : j ≠ (s.icache ip).inum)
    (ht : (dinode s.sb s.disk j).type ≠ T_FREE) :
    SameFile s.disk s'.disk (dinode s.sb s.disk j) := by
  have ht' : (table s ip j).type ≠ T_FREE := by rw [table_of_ne hne]; exact ht
  have hrefs : ∀ k, s.refs ip (j, k) = refAt s.disk (dinode s.sb s.disk j) k := by
    intro k
    unfold Store.refs
    rw [refs_of hj ht', table_of_ne hne]
  refine ⟨fun bn => refAt_congr rfl fun h0 => ?_, fun bn h0 => ?_⟩
  · have := hs.own.indirect hj ht' (by rw [table_of_ne hne]; exact h0)
    rw [table_of_ne hne] at this
    exact hf.disk_data hs this.2.1
  · unfold blockAt at h0 ⊢
    rw [← hrefs] at h0 ⊢
    exact hf.disk_data hs (hs.own.data h0)

end Freed

/-- Without its blocks the inode owns nothing, and the others own what they did. -/
theorem owned_of_freed (hs : Editing s ip)
    (hf : Freed (refAt s.disk (s.icache ip).din) slots s s')
    (hinum : (s'.icache ip).inum = (s.icache ip).inum)
    (hbare : (s'.icache ip).din.addrs = fun _ => 0) : Owned s'.sb (table s' ip) s'.disk := by
  rw [hf.sb]
  have hdata : ∀ k, refAt s.disk (s.icache ip).din k ≠ 0 →
      Data s.sb (refAt s.disk (s.icache ip).din k) := by
    intro k h0
    rw [← hs.refs_self] at h0 ⊢
    exact hs.own.data h0
  refine ⟨hs.own.exact.release (S := {x | x.1 = (s.icache ip).inum}) ?_ ?_ ?_, fun b hb => ?_⟩
  · rintro ⟨j, k⟩ rfl
    unfold refs
    split_ifs
    · rw [← hinum, table_self]
      exact refAt_of_bare hbare
    · rfl
  · rintro ⟨j, k⟩ (hj : j ≠ (s.icache ip).inum)
    by_cases hlt : j < s.sb.nino
    · have htab : table s' ip j = table s ip j := by
        rw [table_of_ne hj, table_of_ne (by rw [hinum]; exact hj), hf.sb]
        exact dinode_congr (hf.disk_inode hlt)
      unfold refs
      rw [htab]
      split_ifs with hc
      · exact refAt_congr rfl fun h0 => hf.disk_data hs (hs.own.indirect hc.1 hc.2 h0).2.1
      · rfl
    · unfold refs
      rw [if_neg fun h => hlt h.1, if_neg fun h => hlt h.1]
  · intro c hc
    rw [hf.used c]
    refine and_congr_right fun _ => ⟨?_, fun h k _ h0 e => ?_⟩
    · rintro h ⟨j, k⟩ rfl e
      have hr : s.refs ip ((s.icache ip).inum, k) = refAt s.disk (s.icache ip).din k := hs.refs_self
      have h0 : refAt s.disk (s.icache ip).din k ≠ 0 := by
        rw [← hr]
        exact fun h0 => hs.layout.ne_zero hc (e.symm.trans h0)
      have hk : k < NREF := Nat.lt_of_not_le fun hk => h0 (refAt_eq_zero hk)
      exact h k (mem_slots.mpr hk) h0 (hr.symm.trans e)
    · exact h ((s.icache ip).inum, k) rfl (hs.refs_self.trans e)
  · refine (hf.used b).mpr ⟨hs.own.area b hb, fun k _ h0 e => ?_⟩
    have := (hdata k h0).1
    omega

/-- All blocks of the inode have been freed, and it is copied to the disk. -/
theorem Truncated.of_freed (h : Sound s) (hl : Live s ip) (hs : Editing s ip)
    (hf : Freed (refAt s.disk (s.icache ip).din) slots s s')
    (hself : s'.icache ip =
      { s.icache ip with din := { (s.icache ip).din with size := 0, addrs := fun _ => 0 } })
    (hother : ∀ jp, jp ≠ ip → s'.icache jp = s.icache jp) (hs'' : s'' = s'.update ip) :
    Truncated ip s s'' := by
  have hinum : (s'.icache ip).inum = (s.icache ip).inum := by rw [hself]
  have hdin : ∀ j < s.sb.nino, Fs.dinode s.sb s'.disk j = Fs.dinode s.sb s.disk j :=
    fun j hj => dinode_congr (hf.disk_inode hj)
  have hbut : SoundBut s' ip :=
    h.but hl.ref hf.toFixed (owned_of_freed hs hf hinum (by rw [hself])) (by rw [hself]) hinum hother
      fun j hj _ => hdin j hj
  have hi : (s'.icache ip).inum < s'.sb.nino := hbut.inum ip hbut.ref
  have hic : s''.icache = s'.icache := by rw [hs'']; rfl
  have hsb : s''.sb = s.sb := by rw [hs'']; exact hf.sb
  have hdino : ∀ j, Fs.dinode s.sb s''.disk j = table s' ip j := by
    intro j
    rw [hs'', ← hf.sb]
    exact dinode_update
  have hdino' : ∀ j < s.sb.nino, j ≠ (s.icache ip).inum →
      Fs.dinode s.sb s''.disk j = Fs.dinode s.sb s.disk j := by
    intro j hj hne
    rw [hdino, table_of_ne (by rw [hinum]; exact hne), hf.sb, hdin j hj]
  refine ⟨hf.toFixed.trans (by rw [hs'']; exact ⟨rfl, rfl, rfl, rfl, rfl⟩),
    hbut.update (fun _ => by rw [hself]; exact ⟨rfl, rfl⟩) hs'',
    fun jp hj => by rw [hic, hother jp hj], by rw [hic, hself], ?_, hdino', fun j hj hne ht => ?_, ?_⟩
  · rw [hdino, ← hinum, table_self, hic]
  · have htab : table s' ip j = Fs.dinode s.sb s.disk j := by
      rw [table_of_ne (by rw [hinum]; exact hne), hf.sb, hdin j hj]
    have hupd := sameFile_update hbut.layout hbut.own hi (j := j) (by rw [hf.sb]; exact hj)
      (by rw [htab]; exact ht)
    rw [htab, ← hs''] at hupd
    exact (hf.sameFile hs hj hne ht).trans hupd
  · rw [hsb]
    refine nfree_le fun c _ hu => ?_
    have hupd : inUse s.sb s''.disk c = inUse s.sb s'.disk c := by
      rw [hs'', ← hf.sb]
      exact inUse_update hi
    rw [hupd] at hu
    exact ((hf.used c).mp hu).1

theorem Dinode.addr_clear : (di.clear ks).addr k = if k ∈ ks then 0 else di.addr k := by
  unfold Dinode.addr Dinode.clear
  by_cases hk : k < NDIRECT + 1
  · rw [dif_pos hk, dif_pos hk]
  · rw [dif_neg hk, dif_neg hk, ite_self]

theorem Dinode.addrs_eq_zero (hclear : ∀ k < NDIRECT, di.addr k = 0) (hind : di.addr NDIRECT = 0) :
    di.addrs = fun _ => 0 := by
  funext j
  have haddr : di.addr j.val = di.addrs j := dif_pos j.isLt
  rw [← haddr]
  by_cases hj : j.val = NDIRECT
  · rw [hj, hind]
  · exact hclear j.val (by have := j.isLt; omega)

/-- The end of `itrunc`: the size is set and the inode copied to the disk. -/
theorem itrunc_end (h : Sound s) (hl : Live s ip) (hs : Editing s ip)
    (hf : Freed (refAt s.disk (s.icache ip).din) slots s s')
    (hself : s'.icache ip = { s.icache ip with din := { (s.icache ip).din with addrs := fun _ => 0 } })
    (hother : ∀ jp, jp ≠ ip → s'.icache jp = s.icache jp) :
    wp E (setDin ip fun di => { di with size := 0 })
      (fun _ t => wp E (iupdate ip) (fun _ s' => Truncated ip s s') t) s' := by
  rw [wp_setDin, hself]
  refine iupdate_wp ?_ ?_ ?_ ?_
  · exact hf.layout h.layout
  · rw [put_self]
    show (s.icache ip).inum < s'.sb.nino
    rw [hf.sb]
    exact hs.lt
  · show 0 < s'.outstanding
    rw [hf.outstanding]
    exact hs.op
  · exact Truncated.of_freed h hl hs (hf.put ip _) put_self
      (fun jp hj => (put_of_ne hj).trans (hother jp hj)) rfl

/-- `itrunc` discards the contents of the inode and touches no other file. -/
theorem itrunc_spec (h : Sound s) (hl : Live s ip) (hop : 0 < s.outstanding) :
    wp E (itrunc ip) (fun _ s' => Truncated ip s s') s := by
  have hs := h.editing hl hop
  have hall := hs.freeable
  unfold itrunc
  rw [wp_bind]
  refine wp_mono (truncDirect_spec (fun k hk => refAt_direct (Nat.le_of_lt (List.mem_range.mp hk)))
    hall.left) ?_
  rintro _ s₁ ⟨hf₁, hself₁, hother₁⟩
  have hrest := hall.drop hf₁
  have hdirect : ∀ k < NDIRECT, ((s.icache ip).din.clear (List.range NDIRECT)).addr k = 0 := by
    intro k hk
    rw [Dinode.addr_clear, if_pos (List.mem_range.mpr hk)]
  have hind : ((s.icache ip).din.clear (List.range NDIRECT)).addr NDIRECT =
      (s.icache ip).din.addr NDIRECT := by
    rw [Dinode.addr_clear, if_neg fun h => Nat.lt_irrefl _ (List.mem_range.mp h)]
  rw [wp_bind, wp_inode, hself₁]
  dsimp only
  rw [hind]
  by_cases h0 : ((s.icache ip).din.addr NDIRECT).toNat = 0
  · rw [if_neg (not_not.mpr h0), wp_bind]
    have hzero : (s.icache ip).din.addr NDIRECT = 0 := BitVec.eq_of_toNat_eq h0
    refine itrunc_end h hl hs (hf₁.append ?_) ?_ hother₁
    · refine ⟨⟨rfl, rfl, rfl, rfl, rfl⟩, fun _ _ => rfl, fun c => ⟨fun hu => ⟨hu, fun k hk hr => ?_⟩,
        fun hu => hu.1⟩⟩
      -- there are no references beyond the direct ones
      refine absurd ?_ hr
      by_cases hk' : k = NDIRECT
      · rw [hk', refAt_direct (Nat.le_refl _), h0]
      · refine refAt_none ?_ h0
        rcases List.mem_append.mp hk with hk | hk
        · obtain ⟨j, -, rfl⟩ := List.mem_map.mp hk
          omega
        · exact absurd (List.mem_singleton.mp hk) hk'
    · have hbare := Dinode.addrs_eq_zero hdirect (hind.trans hzero)
      have hclear : (s.icache ip).din.clear (List.range NDIRECT) = { (s.icache ip).din with
          addrs := ((s.icache ip).din.clear (List.range NDIRECT)).addrs } := rfl
      rw [hself₁, hclear, hbare]
  · rw [if_pos h0, wp_bind]
    obtain ⟨-, hdata⟩ := hs.indirect h0
    have hbp : s₁.disk ((s.icache ip).din.addr NDIRECT).toNat =
        s.disk ((s.icache ip).din.addr NDIRECT).toNat :=
      hf₁.disk _ fun _ hb => h.layout.ne_BBLOCK hdata hb
    refine wp_bread (by rw [hf₁.fssize]; exact h.layout.lt hdata.2) ?_
    rw [hbp, wp_bind]
    refine wp_mono (truncIndirect_spec (fun j hj => refAt_entry h0 (List.mem_range.mp hj))
      (hrest.left.comp fun i j e => Nat.add_left_cancel e)) ?_
    rintro _ s₂ ⟨hf₂, hic₂⟩
    have hlast := hrest.drop hf₂.map
    obtain ⟨hd, hu⟩ := hlast.data NDIRECT List.mem_cons_self (by
      rw [refAt_direct (Nat.le_refl _)]
      exact h0)
    rw [refAt_direct (Nat.le_refl _)] at hd hu
    rw [wp_bind]
    refine wp_mono (bfree_spec (hlast.layout.BBLOCK_lt hd.2) hu hlast.op) ?_
    rintro _ s₃ hs₃
    have hic₃ : s₃.icache = s₁.icache := by
      rw [← hic₂, hs₃]
      rfl
    have hf₃ : Freed (refAt s.disk (s.icache ip).din) [NDIRECT] s₂ s₃ := by
      refine freed_one hlast.layout (fun _ => by rw [refAt_direct (Nat.le_refl _)]; exact hd) ?_
      rw [refAt_direct (Nat.le_refl _), if_neg h0]
      exact hs₃
    rw [wp_bind, wp_setDin, wp_bind, hic₃, hself₁]
    refine itrunc_end h hl hs ((hf₁.append (hf₂.map.append hf₃)).put ip _) ?_ fun jp hj => ?_
    · rw [put_self]
      have hbare : (((s.icache ip).din.clear (List.range NDIRECT)).setAddr NDIRECT 0).addrs =
          fun _ => 0 := by
        refine Dinode.addrs_eq_zero (fun k hk => ?_) ?_
        · rw [Dinode.addr_setAddr, if_neg fun e => Nat.ne_of_lt hk e.1, hdirect k hk]
        · rw [Dinode.addr_setAddr, if_pos ⟨rfl, Nat.le_refl _⟩]
      have hclear : ((s.icache ip).din.clear (List.range NDIRECT)).setAddr NDIRECT 0 =
          { (s.icache ip).din with addrs :=
            (((s.icache ip).din.clear (List.range NDIRECT)).setAddr NDIRECT 0).addrs } := rfl
      rw [hclear, hbare]
    · rw [put_of_ne hj, hic₃, hother₁ jp hj]

end DuckoUnix.Fs
