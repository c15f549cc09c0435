import DuckoUnix.Lib.Exact
import DuckoUnix.Fs.Alloc

/-!
# Who owns which block

An inode refers to blocks by its block numbers and by the entries of its indirect block. `Owned` says
that in a table of inodes over a disk no block is referred to twice, that the blocks of the data area
in use are those referred to, and that the blocks before the data area are all in use. A block that
`balloc` has returned can be attached to an inode: as one of its block numbers, or as an entry of
its indirect block.
-/

namespace DuckoUnix.Fs

open Lib Function

variable {sb : Superblock} {fssize : ℕ} {T T' : ℕ → Dinode} {d d' : Disk} {di : Dinode}
  {i j k k' b c : ℕ}

/-! ## References to blocks -/

/-- The references of an inode: its block numbers and the entries of its indirect block. -/
def NREF : ℕ := NDIRECT + 1 + NINDIRECT

def refAt (d : Disk) (di : Dinode) (k : ℕ) : ℕ :=
  if k ≤ NDIRECT then (di.addr k).toNat
  else if (di.addr NDIRECT).toNat = 0 ∨ NREF ≤ k then 0
  else (getAddr (d (di.addr NDIRECT).toNat) (k - (NDIRECT + 1))).toNat

theorem refAt_direct (hk : k ≤ NDIRECT) : refAt d di k = (di.addr k).toNat := if_pos hk

theorem refAt_none (hk : NDIRECT < k) (h : (di.addr NDIRECT).toNat = 0) : refAt d di k = 0 := by
  unfold refAt
  rw [if_neg (Nat.not_le.mpr hk), if_pos (Or.inl h)]

theorem refAt_entry (h : (di.addr NDIRECT).toNat ≠ 0) (hj : j < NINDIRECT) :
    refAt d di (NDIRECT + 1 + j) = (getAddr (d (di.addr NDIRECT).toNat) j).toNat := by
  have hk : ¬ NREF ≤ NDIRECT + 1 + j := by
    unfold NREF
    omega
  unfold refAt
  rw [if_neg (by omega), if_neg (by simp [h, hk]), Nat.add_sub_cancel_left]

theorem refAt_congr {di' : Dinode} (haddr : di'.addrs = di.addrs)
    (h : (di.addr NDIRECT).toNat ≠ 0 → d' (di.addr NDIRECT).toNat = d (di.addr NDIRECT).toNat) :
    refAt d' di' k = refAt d di k := by
  have ha : ∀ k, di'.addr k = di.addr k := by
    intro k
    unfold Dinode.addr
    rw [haddr]
  unfold refAt
  rw [ha, ha]
  by_cases h0 : (di.addr NDIRECT).toNat = 0
  · rw [if_pos (Or.inl h0), if_pos (Or.inl h0)]
  · rw [h h0]

/-- The references of the allocated inodes of a table. -/
def refs (sb : Superblock) (T : ℕ → Dinode) (d : Disk) : ℕ × ℕ → ℕ := fun x =>
  if x.1 < sb.nino ∧ (T x.1).type ≠ T_FREE then refAt d (T x.1) x.2 else 0

theorem refs_of (hi : i < sb.nino) (ht : (T i).type ≠ T_FREE) :
    refs sb T d (i, k) = refAt d (T i) k := if_pos ⟨hi, ht⟩

theorem refs_congr (htype : ∀ i < sb.nino, ((T' i).type = T_FREE ↔ (T i).type = T_FREE))
    (haddr : ∀ i < sb.nino, (T i).type ≠ T_FREE → (T' i).addrs = (T i).addrs)
    (hblk : ∀ i < sb.nino, (T i).type ≠ T_FREE → ((T i).addr NDIRECT).toNat ≠ 0 →
      d' ((T i).addr NDIRECT).toNat = d ((T i).addr NDIRECT).toNat) (x : ℕ × ℕ) :
    refs sb T' d' x = refs sb T d x := by
  obtain ⟨i, k⟩ := x
  by_cases hi : i < sb.nino
  · by_cases ht : (T i).type = T_FREE
    · unfold refs
      rw [if_neg fun h => h.2 ((htype i hi).mpr ht), if_neg fun h => h.2 ht]
    · rw [refs_of hi ht, refs_of hi fun e => ht ((htype i hi).mp e)]
      exact refAt_congr (haddr i hi ht) (hblk i hi ht)
  · unfold refs
    rw [if_neg fun h => hi h.1, if_neg fun h => hi h.1]

/-- Blocks and their owners. -/
structure Owned (sb : Superblock) (T : ℕ → Dinode) (d : Disk) : Prop where
  exact : Exact (refs sb T d) (inUse sb d) (Data sb)
  area : ∀ b < sb.nmeta, inUse sb d b = true

namespace Owned

variable (h : Owned sb T d)
include h

theorem data (hk : refs sb T d (i, k) ≠ 0) : Data sb (refs sb T d (i, k)) := (h.exact.marked hk).1

theorem inUse_ref (hk : refs sb T d (i, k) ≠ 0) : inUse sb d (refs sb T d (i, k)) = true :=
  (h.exact.marked hk).2

theorem indirect (hi : i < sb.nino) (ht : (T i).type ≠ T_FREE)
    (h0 : ((T i).addr NDIRECT).toNat ≠ 0) :
    refs sb T d (i, NDIRECT) = ((T i).addr NDIRECT).toNat ∧ Data sb ((T i).addr NDIRECT).toNat ∧
      inUse sb d ((T i).addr NDIRECT).toNat = true := by
  have he : refs sb T d (i, NDIRECT) = ((T i).addr NDIRECT).toNat := by
    rw [refs_of hi ht, refAt_direct (Nat.le_refl _)]
  rw [← he] at h0 ⊢
  exact ⟨rfl, h.data h0, h.inUse_ref h0⟩

theorem data_of_free (hb : b < sb.size) (hfree : inUse sb d b = false) : Data sb b := by
  refine ⟨Nat.le_of_not_lt fun hlt => ?_, hb⟩
  rw [h.area b hlt] at hfree
  cases hfree

theorem indirect_ne (hi : i < sb.nino) (ht : (T i).type ≠ T_FREE)
    (h0 : ((T i).addr NDIRECT).toNat ≠ 0) (hj : j < sb.nino) (ht' : (T j).type ≠ T_FREE)
    (hij : j ≠ i) : ((T j).addr NDIRECT).toNat ≠ ((T i).addr NDIRECT).toNat := by
  intro e
  obtain ⟨he, -⟩ := h.indirect hi ht h0
  obtain ⟨he', -⟩ := h.indirect hj ht' (by rw [e]; exact h0)
  have hinj : (j, NDIRECT) = (i, NDIRECT) :=
    h.exact.inj (by rw [he]; exact h0) (by rw [he, he', e])
  exact hij (congrArg Prod.fst hinj)

end Owned

/-! ## Attaching a block -/

theorem Dinode.addr_setAddr {a : BitVec 32} :
    (di.setAddr k a).addr k' = if k' = k ∧ k ≤ NDIRECT then a else di.addr k' := by
  unfold Dinode.addr Dinode.setAddr
  by_cases hk' : k' < NDIRECT + 1
  · rw [dif_pos hk', dif_pos hk']
    by_cases e : k' = k
    · rw [if_pos ⟨e, by omega⟩]
      exact if_pos e
    · rw [if_neg fun h => e h.1]
      exact if_neg e
  · rw [dif_neg hk', dif_neg hk', if_neg fun h => hk' (by omega)]

section Attach

variable (L : Layout sb fssize) (h : Owned sb T d) (hi : i < sb.nino) (ht : (T i).type ≠ T_FREE)
  (hb : b < sb.size) (hfree : inUse sb d b = false)

include L h hb hfree

/-- `balloc` leaves alone what inodes refer to. -/
theorem allocDisk_ref {x : ℕ × ℕ} (hx : refs sb T d x ≠ 0) :
    allocDisk sb d b (refs sb T d x) = d (refs sb T d x) :=
  allocDisk_of_ne (h.exact.ne_of_free hfree hx) (L.ne_BBLOCK (h.data hx) hb)

theorem allocDisk_indirect (hj : j < sb.nino) (htj : (T j).type ≠ T_FREE)
    (h0 : ((T j).addr NDIRECT).toNat ≠ 0) :
    allocDisk sb d b ((T j).addr NDIRECT).toNat = d ((T j).addr NDIRECT).toNat := by
  obtain ⟨he, -⟩ := h.indirect hj htj h0
  rw [← he] at h0 ⊢
  exact allocDisk_ref L h hb hfree h0

theorem inUse_alloc (hc : c < sb.size) :
    inUse sb (allocDisk sb d b) c = (decide (c = b) || inUse sb d c) :=
  inUse_allocDisk (L.ne_BBLOCK (h.data_of_free hb hfree) hc).symm

include hi ht

theorem refs_attach_addr (hk : k ≤ NDIRECT) (h0 : ((T i).addr k).toNat = 0) (x : ℕ × ℕ) :
    refs sb (update T i ((T i).setAddr k (BitVec.ofNat 32 b))) (allocDisk sb d b) x =
      if x = (i, k) then b else refs sb T d x := by
  obtain ⟨j, k'⟩ := x
  by_cases e : j = i
  · subst e
    have ht' : (update T j ((T j).setAddr k (BitVec.ofNat 32 b)) j).type ≠ T_FREE := by
      rw [update_self]
      exact ht
    rw [refs_of hi ht', update_self, refs_of hi ht]
    by_cases hk' : k' ≤ NDIRECT
    · rw [refAt_direct hk', refAt_direct hk', Dinode.addr_setAddr]
      by_cases ek : k' = k
      · rw [if_pos ⟨ek, hk⟩, if_pos (by rw [ek]), L.toNat_ofNat hb]
      · rw [if_neg fun h => ek h.1, if_neg fun h => ek (congrArg Prod.snd h)]
    · have ek : k' ≠ k := by omega
      rw [if_neg fun h => ek (congrArg Prod.snd h)]
      by_cases hkd : k = NDIRECT
      · -- the new indirect block is zero
        subst hkd
        have ha : (((T j).setAddr NDIRECT (BitVec.ofNat 32 b)).addr NDIRECT).toNat = b := by
          rw [Dinode.addr_setAddr, if_pos ⟨rfl, hk⟩, L.toNat_ofNat hb]
        rw [refAt_none (by omega) h0]
        unfold refAt
        rw [if_neg hk', ha]
        split_ifs
        · rfl
        · rw [allocDisk_self]
          rfl
      · have ha : ((T j).setAddr k (BitVec.ofNat 32 b)).addr NDIRECT = (T j).addr NDIRECT := by
          rw [Dinode.addr_setAddr, if_neg fun h => hkd h.1.symm]
        unfold refAt
        rw [if_neg hk', if_neg hk', ha]
        by_cases hind : ((T j).addr NDIRECT).toNat = 0
        · rw [if_pos (Or.inl hind), if_pos (Or.inl hind)]
        · rw [allocDisk_indirect L h hb hfree hi ht hind]
  · rw [if_neg fun h => e (congrArg Prod.fst h)]
    unfold refs
    dsimp only
    rw [update_of_ne e]
    by_cases hj : j < sb.nino ∧ (T j).type ≠ T_FREE
    · rw [if_pos hj, if_pos hj]
      exact refAt_congr rfl (allocDisk_indirect L h hb hfree hj.1 hj.2)
    · rw [if_neg hj, if_neg hj]

theorem refs_attach_entry (h0 : ((T i).addr NDIRECT).toNat ≠ 0) (hj : j < NINDIRECT) (x : ℕ × ℕ) :
    refs sb T (update (allocDisk sb d b) ((T i).addr NDIRECT).toNat
        (putAddr (d ((T i).addr NDIRECT).toNat) j (BitVec.ofNat 32 b))) x =
      if x = (i, NDIRECT + 1 + j) then b else refs sb T d x := by
  obtain ⟨i', k'⟩ := x
  by_cases e : i' = i
  · subst e
    rw [refs_of hi ht, refs_of hi ht]
    by_cases hk' : k' ≤ NDIRECT
    · rw [refAt_direct hk', refAt_direct hk', if_neg fun h => by
        have := congrArg Prod.snd h
        dsimp only at this
        omega]
    · unfold refAt
      rw [if_neg hk', if_neg hk', update_self, getAddr_putAddr]
      by_cases hend : NREF ≤ k'
      · rw [if_pos (Or.inr hend), if_pos (Or.inr hend), if_neg fun h => by
          have := congrArg Prod.snd h
          dsimp only at this
          unfold NREF at hend
          omega]
      · have hc : ¬ (((T i').addr NDIRECT).toNat = 0 ∨ NREF ≤ k') := by simp [h0, hend]
        rw [if_neg hc, if_neg hc]
        by_cases ek : k' - (NDIRECT + 1) = j
        · rw [if_pos ek, if_pos (by rw [← ek, Nat.add_sub_cancel' (by omega)]), L.toNat_ofNat hb]
        · rw [if_neg ek, if_neg fun h => ek (by
            have := congrArg Prod.snd h
            dsimp only at this
            omega)]
  · rw [if_neg fun h => e (congrArg Prod.fst h)]
    unfold refs
    dsimp only
    by_cases hj' : i' < sb.nino ∧ (T i').type ≠ T_FREE
    · rw [if_pos hj', if_pos hj']
      refine refAt_congr rfl fun h0' => ?_
      rw [update_of_ne (h.indirect_ne hi ht h0 hj'.1 hj'.2 e)]
      exact allocDisk_indirect L h hb hfree hj'.1 hj'.2 h0'
    · rw [if_neg hj', if_neg hj']

end Attach

/-- A free block taken up as reference `k` of inode `i`. -/
theorem Owned.attach (L : Layout sb fssize) (h : Owned sb T d) (hb : b < sb.size)
    (hfree : inUse sb d b = false) {x : ℕ × ℕ} (hx : refs sb T d x = 0)
    (hrefs : ∀ y, refs sb T' d' y = if y = x then b else refs sb T d y)
    (hused : ∀ c < sb.size, inUse sb d' c = inUse sb (allocDisk sb d b) c) : Owned sb T' d' := by
  have hdata := h.data_of_free hb hfree
  have hin : ∀ c < sb.size, inUse sb d' c = (decide (c = b) || inUse sb d c) := fun c hc => by
    rw [hused c hc, inUse_alloc L h hb hfree hc]
  refine ⟨h.exact.attach hx hfree hdata (L.ne_zero hdata) (by rw [hrefs, if_pos rfl])
    (fun y hy => by rw [hrefs, if_neg hy]) fun c hc => hin c hc.2, fun c hc => ?_⟩
  rw [hin c (Nat.lt_of_lt_of_le hc sb.nmeta_le), h.area c hc, Bool.or_true]

end DuckoUnix.Fs
