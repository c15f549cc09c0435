import DuckoUnix.Fs.Layout

/-!
# The block allocator

`balloc` and `bfree` on a free map of any number of blocks. `balloc` takes the first clear bit and
zeroes that block; `bfree` clears a bit. That `balloc` changes nothing else needs the blocks of the
map to be marked themselves: it would hand out and zero a block of the map whose bit is clear.
-/

namespace DuckoUnix.Fs

open Lib Function

variable {sb : Superblock} {d d' : Disk} {b c : ℕ} {s : Store} {E : Halt → Prop}

/-! ## The free map -/

/-- The disk after `balloc` has returned `b`. -/
def allocDisk (sb : Superblock) (d : Disk) (b : ℕ) : Disk :=
  update (update d (BBLOCK b sb) (setBit (d (BBLOCK b sb)) (b % BPB))) b fun _ => 0

def freeDisk (sb : Superblock) (d : Disk) (b : ℕ) : Disk :=
  update d (BBLOCK b sb) (clearBit (d (BBLOCK b sb)) (b % BPB))

theorem allocDisk_self : allocDisk sb d b b = fun _ => 0 := update_self _ _ _

theorem allocDisk_of_ne (hb : c ≠ b) (hmap : c ≠ BBLOCK b sb) : allocDisk sb d b c = d c := by
  unfold allocDisk
  rw [update_of_ne hb, update_of_ne hmap]

theorem freeDisk_of_ne (h : c ≠ BBLOCK b sb) : freeDisk sb d b c = d c := update_of_ne h _ _

theorem inUse_congr (h : d' (BBLOCK b sb) = d (BBLOCK b sb)) : inUse sb d' b = inUse sb d b := by
  unfold inUse
  rw [h]

theorem inUse_update_setBit :
    inUse sb (update d (BBLOCK b sb) (setBit (d (BBLOCK b sb)) (b % BPB))) c =
      (decide (c = b) || inUse sb d c) := by
  unfold inUse
  by_cases hblock : BBLOCK c sb = BBLOCK b sb
  · rw [hblock, update_self, bit_setBit]
    congr 1
    exact decide_eq_decide.mpr ⟨BBLOCK_inj hblock, fun e => by rw [e]⟩
  · rw [update_of_ne hblock, decide_eq_false fun e => hblock (by rw [e]), Bool.false_or]

theorem inUse_allocDisk (h : BBLOCK c sb ≠ b) :
    inUse sb (allocDisk sb d b) c = (decide (c = b) || inUse sb d c) := by
  rw [← inUse_update_setBit]
  exact inUse_congr (update_of_ne h _ _)

theorem inUse_freeDisk : inUse sb (freeDisk sb d b) c = (!decide (c = b) && inUse sb d c) := by
  unfold inUse freeDisk
  by_cases hblock : BBLOCK c sb = BBLOCK b sb
  · rw [hblock, update_self, bit_clearBit]
    congr 2
    exact decide_eq_decide.mpr ⟨BBLOCK_inj hblock, fun e => by rw [e]⟩
  · rw [update_of_ne hblock, decide_eq_false fun e => hblock (by rw [e]), Bool.not_false,
      Bool.true_and]

/-- How many blocks are free. -/
def nfree (sb : Superblock) (d : Disk) : ℕ :=
  ((Finset.range sb.size).filter fun b => inUse sb d b = false).card

theorem nfree_congr (h : ∀ b < sb.size, inUse sb d' b = inUse sb d b) : nfree sb d' = nfree sb d := by
  unfold nfree
  congr 1
  exact Finset.filter_congr fun b hb => by rw [h b (Finset.mem_range.mp hb)]

theorem nfree_insert (hb : b < sb.size) (hfree : inUse sb d b = false)
    (h : ∀ c < sb.size, inUse sb d' c = (decide (c = b) || inUse sb d c)) :
    nfree sb d' + 1 = nfree sb d := by
  unfold nfree
  have hmem : b ∈ (Finset.range sb.size).filter fun b => inUse sb d b = false :=
    Finset.mem_filter.mpr ⟨Finset.mem_range.mpr hb, hfree⟩
  have herase : ((Finset.range sb.size).filter fun c => inUse sb d' c = false) =
      ((Finset.range sb.size).filter fun b => inUse sb d b = false).erase b := by
    ext c
    simp only [Finset.mem_filter, Finset.mem_erase, Finset.mem_range]
    constructor
    · rintro ⟨hc, hu⟩
      rw [h c hc, Bool.or_eq_false_iff, decide_eq_false_iff_not] at hu
      exact ⟨hu.1, hc, hu.2⟩
    · rintro ⟨hne, hc, hu⟩
      exact ⟨hc, by rw [h c hc, decide_eq_false hne, Bool.false_or, hu]⟩
  rw [herase, Finset.card_erase_add_one hmem]

theorem nfree_le (h : ∀ c < sb.size, inUse sb d' c = true → inUse sb d c = true) :
    nfree sb d ≤ nfree sb d' := by
  refine Finset.card_le_card fun c hc => ?_
  obtain ⟨hc, hu⟩ := Finset.mem_filter.mp hc
  refine Finset.mem_filter.mpr ⟨hc, ?_⟩
  by_contra hu'
  have := h c (Finset.mem_range.mp hc) (by simpa using hu')
  rw [hu] at this
  cases this

theorem nfree_eq_zero (h : ∀ b < sb.size, inUse sb d b = true) : nfree sb d = 0 := by
  refine Finset.card_eq_zero.mpr (Finset.filter_eq_empty_iff.mpr fun b hb hu => ?_)
  rw [h b (Finset.mem_range.mp hb)] at hu
  cases hu

/-! ## `balloc` -/

theorem firstFree_some {m : Bytes} {n bi : ℕ} (h : firstFree m n = some bi) :
    bi < n ∧ bit m bi = false ∧ ∀ j < bi, bit m j = true := by
  unfold firstFree at h
  obtain ⟨hbit, hmem, hbefore⟩ := List.find?_range_eq_some.mp h
  exact ⟨List.mem_range.mp hmem, by simpa using hbit, fun j hj => by simpa using hbefore j hj⟩

theorem firstFree_none {m : Bytes} {n : ℕ} (h : firstFree m n = none) : ∀ j < n, bit m j = true := by
  unfold firstFree at h
  intro j hj
  simpa using List.find?_eq_none.mp h j (List.mem_range.mpr hj)

def Store.alloc (s : Store) (b : ℕ) : Store :=
  let s' := (s.write (BBLOCK b s.sb) (setBit (s.disk (BBLOCK b s.sb)) (b % BPB))).write b fun _ => 0
  { s' with allocs := s.allocs + 1 }

theorem Store.alloc_disk : (s.alloc b).disk = allocDisk s.sb s.disk b := rfl

/-- `b` is the first block that is not in use. -/
structure Least (sb : Superblock) (d : Disk) (b : ℕ) : Prop where
  lt : b < sb.size
  free : inUse sb d b = false
  least : ∀ c < b, inUse sb d c = true

theorem inUse_add {bi : ℕ} (hb : BPB ∣ b) (hbi : bi < BPB) :
    inUse sb d (b + bi) = bit (d (BBLOCK b sb)) bi := by
  obtain ⟨k, rfl⟩ := hb
  have hdiv : (BPB * k + bi) / BPB = BPB * k / BPB := by
    rw [Nat.mul_add_div (by decide), Nat.div_eq_of_lt hbi, Nat.add_zero,
      Nat.mul_div_cancel_left k (by decide)]
  unfold inUse BBLOCK
  rw [hdiv, Nat.mul_add_mod, Nat.mod_eq_of_lt hbi]

theorem BBLOCK_add {bi : ℕ} (hb : BPB ∣ b) (hbi : bi < BPB) : BBLOCK (b + bi) sb = BBLOCK b sb := by
  obtain ⟨k, rfl⟩ := hb
  unfold BBLOCK
  rw [Nat.mul_add_div (by decide), Nat.div_eq_of_lt hbi, Nat.add_zero,
    Nat.mul_div_cancel_left k (by decide)]

/-- The driver lets the kernel have the map and the blocks it is about, and the counter of `balloc`,
an `int`, does not overflow. -/
structure Within (sb : Superblock) (fssize : ℕ) : Prop where
  map : ∀ b < sb.size, BBLOCK b sb < fssize
  size : sb.size ≤ fssize
  int : sb.size + BPB ≤ 2 ^ 31

theorem Layout.within {fssize : ℕ} (L : Layout sb fssize) : Within sb fssize :=
  ⟨fun _ hb => L.BBLOCK_lt hb, L.size, L.int⟩

/-- The blocks of the map from `b` on; those before are in use. -/
theorem ballocLoop_spec (W : Within s.sb s.fssize) (hop : 0 < s.outstanding) (n : ℕ)
    (hb : BPB ∣ b) (hn : s.sb.size < b + n * BPB)
    (hbefore : ∀ c < b, c < s.sb.size → inUse s.sb s.disk c = true)
    (hE : (∀ c < s.sb.size, inUse s.sb s.disk c = true) → E (.outOfBlocks, s)) :
    wp E (ballocLoop n b) (fun b s' => Least s.sb s.disk b ∧ s' = s.alloc b) s := by
  induction n generalizing b with
  | zero => exact hE fun c hc => hbefore c (by omega) hc
  | succ n ih =>
    unfold ballocLoop
    rw [wp_bind, wp_get]
    dsimp only
    by_cases hsize : s.sb.size ≤ b
    · rw [if_pos hsize]
      exact hE fun c hc => hbefore c (by omega) hc
    · rw [if_neg hsize, wp_bind]
      have hsize := Nat.lt_of_not_le hsize
      refine wp_bread (W.map b hsize) ?_
      cases hfree : firstFree (s.disk (BBLOCK b s.sb)) (min BPB (s.sb.size - b)) with
      | none =>
        dsimp only
        refine ih (Nat.dvd_add hb (Nat.dvd_refl _)) (by rw [Nat.add_mul, Nat.one_mul] at hn; omega)
          fun c hc hcs => ?_
        by_cases hcb : c < b
        · exact hbefore c hcb hcs
        · obtain ⟨bi, rfl⟩ := Nat.exists_eq_add_of_le (Nat.le_of_not_lt hcb)
          have hbi : bi < BPB := by omega
          rw [inUse_add hb hbi]
          exact firstFree_none hfree bi (Nat.lt_min.mpr ⟨hbi, by omega⟩)
      | some bi =>
        obtain ⟨hlt, hbit, hbefore'⟩ := firstFree_some hfree
        obtain ⟨hbi, hbs⟩ := Nat.lt_min.mp hlt
        have hlt' : b + bi < s.sb.size := by omega
        have hleast : Least s.sb s.disk (b + bi) := by
          refine ⟨hlt', by rw [inUse_add hb hbi, hbit], fun c hc => ?_⟩
          by_cases hcb : c < b
          · exact hbefore c hcb (by omega)
          · obtain ⟨j, rfl⟩ := Nat.exists_eq_add_of_le (Nat.le_of_not_lt hcb)
            have hj : j < bi := by omega
            rw [inUse_add hb (by omega)]
            exact hbefore' j hj
        dsimp only
        rw [wp_bind]
        refine wp_log_write hop ?_
        unfold bzero
        rw [wp_bind, wp_bind]
        refine wp_bread (Nat.lt_of_lt_of_le hlt' W.size) (wp_log_write hop ?_)
        refine ⟨hleast, ?_⟩
        have hmod : (b + bi) % BPB = bi := by
          obtain ⟨k, rfl⟩ := hb
          rw [Nat.mul_add_mod, Nat.mod_eq_of_lt hbi]
        unfold Store.alloc
        rw [BBLOCK_add hb hbi, hmod]
        rfl

/-- `balloc` returns the first block that is not in use; it panics if there is none. -/
theorem balloc_spec (W : Within s.sb s.fssize) (hop : 0 < s.outstanding)
    (hE : (∀ c < s.sb.size, inUse s.sb s.disk c = true) → E (.outOfBlocks, s)) :
    wp E balloc (fun b s' => Least s.sb s.disk b ∧ s' = s.alloc b) s := by
  unfold balloc
  rw [wp_bind, wp_get]
  refine ballocLoop_spec W hop _ (Nat.dvd_zero _) ?_ (fun c hc => absurd hc (Nat.not_lt_zero c)) hE
  rw [Nat.zero_add, Nat.add_mul, Nat.one_mul]
  exact Nat.lt_div_mul_add (by decide)

/-! ## `bfree` -/

def Store.free (s : Store) (b : ℕ) : Store :=
  s.write (BBLOCK b s.sb) (clearBit (s.disk (BBLOCK b s.sb)) (b % BPB))

theorem Store.free_disk : (s.free b).disk = freeDisk s.sb s.disk b := rfl

theorem bfree_spec (hmap : BBLOCK b s.sb < s.fssize) (hin : inUse s.sb s.disk b = true)
    (hop : 0 < s.outstanding) : wp E (bfree b) (fun _ s' => s' = s.free b) s := by
  unfold bfree
  rw [wp_bind, wp_get]
  dsimp only
  rw [wp_bind]
  refine wp_bread hmap ?_
  rw [if_pos (show bit (s.disk (BBLOCK b s.sb)) (b % BPB) = true from hin)]
  exact wp_log_write hop rfl

/-! ## The allocator as a whole -/

theorem exists_least (h : ¬ ∀ c < sb.size, inUse sb d c = true) : ∃ b, Least sb d b := by
  have hex : ∃ c, c < sb.size ∧ inUse sb d c = false := by
    by_contra hno
    refine h fun c hc => ?_
    by_contra hu
    exact hno ⟨c, hc, by simpa using hu⟩
  classical
  refine ⟨Nat.find hex, (Nat.find_spec hex).1, (Nat.find_spec hex).2, fun c hc => ?_⟩
  have hmin := Nat.find_min hex hc
  have hlt := Nat.lt_trans hc (Nat.find_spec hex).1
  by_contra hu
  exact hmin ⟨hlt, by simpa using hu⟩

theorem Least.unique (h : Least sb d b) (h' : Least sb d c) : b = c := by
  by_contra hne
  rcases Nat.lt_or_gt_of_ne hne with hlt | hlt
  · have := h'.least b hlt
    rw [h.free] at this
    cases this
  · have := h.least c hlt
    rw [h'.free] at this
    cases this

/-- With a free block `balloc` returns the first one. -/
theorem balloc_ok (W : Within s.sb s.fssize) (hop : 0 < s.outstanding)
    (hb : Least s.sb s.disk b) : balloc s = .ok (b, s.alloc b) := by
  have hspec : wp (fun _ => False) balloc (fun b s' => Least s.sb s.disk b ∧ s' = s.alloc b) s :=
    balloc_spec W hop fun hall => by
      have := hall b hb.lt
      rw [hb.free] at this
      cases this
  obtain ⟨b', s', hx, hleast, hs'⟩ := wp_returns hspec
  rw [hx, hs', hb.unique hleast]

theorem balloc_full (W : Within s.sb s.fssize) (hop : 0 < s.outstanding)
    (hall : ∀ c < s.sb.size, inUse s.sb s.disk c = true) : balloc s = .error (.outOfBlocks, s) := by
  have hspec : wp (fun e => e = (.outOfBlocks, s)) balloc (fun _ _ => False) s := by
    refine wp_mono (balloc_spec W hop fun _ => rfl) fun b s' ⟨hleast, _⟩ => ?_
    have := hall b hleast.lt
    rw [hleast.free] at this
    cases this
  obtain ⟨e, hx, he⟩ := wp_faults hspec
  rw [hx, he]

theorem bfree_ok (hmap : BBLOCK b s.sb < s.fssize) (hin : inUse s.sb s.disk b = true)
    (hop : 0 < s.outstanding) : bfree b s = .ok ((), s.free b) := by
  obtain ⟨_, s', hx, hs'⟩ := wp_returns (bfree_spec hmap hin hop)
  rw [hx, hs']

/-- The free map is what it was when a block has been allocated and freed again. -/
theorem free_alloc_map (hb : inUse s.sb s.disk b = false) (hne : BBLOCK c s.sb ≠ b) :
    ((s.alloc b).free b).disk (BBLOCK c s.sb) = s.disk (BBLOCK c s.sb) := by
  have hdisk : ((s.alloc b).free b).disk = freeDisk s.sb (allocDisk s.sb s.disk b) b := rfl
  rw [hdisk]
  by_cases hblock : BBLOCK c s.sb = BBLOCK b s.sb
  · unfold freeDisk allocDisk
    rw [hblock] at hne ⊢
    rw [update_self, update_of_ne hne, update_self]
    exact clearBit_setBit hb
  · rw [freeDisk_of_ne hblock, allocDisk_of_ne hne hblock]

/-- The block allocator on any free map in which the blocks of the map are marked themselves. `balloc`
panics if and only if every block is in use; otherwise it returns the least free block, sets its bit,
zeroes it and changes nothing else. `bfree` clears the bit of a block in use and changes nothing else.
After `balloc` and `bfree` of its result the map is what it was. -/
theorem balloc_bitmap (s : Store) (W : Within s.sb s.fssize) (hop : 0 < s.outstanding)
    (hmap : ∀ b < s.sb.size, BBLOCK b s.sb < s.sb.size → inUse s.sb s.disk (BBLOCK b s.sb) = true) :
    ((∃ h, balloc s = .error h) ↔ ∀ b < s.sb.size, inUse s.sb s.disk b = true) ∧
    ((∃ b < s.sb.size, inUse s.sb s.disk b = false) →
      ∃ b s', balloc s = .ok (b, s') ∧ b < s.sb.size ∧ inUse s.sb s.disk b = false ∧
        (∀ c < b, inUse s.sb s.disk c = true) ∧
        (∀ c < s.sb.size, inUse s.sb s'.disk c = (decide (c = b) || inUse s.sb s.disk c)) ∧
        s'.disk (BBLOCK b s.sb) = setBit (s.disk (BBLOCK b s.sb)) (b % BPB) ∧
        s'.disk b = (fun _ => 0) ∧
        (∀ c, c ≠ b → c ≠ BBLOCK b s.sb → s'.disk c = s.disk c) ∧
        ∃ t, bfree b s' = .ok ((), t) ∧
          ∀ c < s.sb.size, t.disk (BBLOCK c s.sb) = s.disk (BBLOCK c s.sb)) ∧
    (∀ b < s.sb.size, inUse s.sb s.disk b = true →
      ∃ s', bfree b s = .ok ((), s') ∧
        (∀ c, inUse s.sb s'.disk c = (!decide (c = b) && inUse s.sb s.disk c)) ∧
        s'.disk (BBLOCK b s.sb) = clearBit (s.disk (BBLOCK b s.sb)) (b % BPB) ∧
        ∀ c, c ≠ BBLOCK b s.sb → s'.disk c = s.disk c) := by
  refine ⟨⟨fun ⟨h, hx⟩ => ?_, fun hall => ⟨_, balloc_full W hop hall⟩⟩, fun hex => ?_,
    fun b hb hin => ?_⟩
  · by_contra hno
    obtain ⟨b, hb⟩ := exists_least hno
    rw [balloc_ok W hop hb] at hx
    cases hx
  · obtain ⟨c, hc, hfree⟩ := hex
    have hsome : ¬ ∀ c < s.sb.size, inUse s.sb s.disk c = true := by
      intro hall
      rw [hall c hc] at hfree
      cases hfree
    obtain ⟨b, hb⟩ := exists_least hsome
    -- the first free block is none of the map
    have hne : ∀ c < s.sb.size, BBLOCK c s.sb ≠ b := by
      intro c hc e
      have := hmap c hc (by rw [e]; exact hb.lt)
      rw [e, hb.free] at this
      cases this
    have hset : inUse s.sb (s.alloc b).disk b = true := by
      rw [Store.alloc_disk, inUse_allocDisk (hne b hb.lt), decide_eq_true rfl, Bool.true_or]
    refine ⟨b, s.alloc b, balloc_ok W hop hb, hb.lt, hb.free, hb.least,
      fun c hc => inUse_allocDisk (hne c hc), ?_, allocDisk_self, fun c => allocDisk_of_ne,
      (s.alloc b).free b, bfree_ok (W.map b hb.lt) hset hop,
      fun c hc => free_alloc_map hb.free (hne c hc)⟩
    rw [Store.alloc_disk]
    unfold allocDisk
    rw [update_of_ne (hne b hb.lt), update_self]
  · exact ⟨s.free b, bfree_ok (W.map b hb) hin hop, fun c => inUse_freeDisk,
      update_self _ _ _, fun c hc => freeDisk_of_ne hc⟩

/-- The kernel in a transaction, on a disk of zeros whose free map is `m`. -/
def mapStore (m : Bytes) : Store :=
  { Store.boot .mkfs FSSIZE (fun b => if b = 58 then m else fun _ => 0) with outstanding := 1 }

theorem inUse_mapStore {m : Bytes} (hb : b < FSSIZE) :
    inUse (mapStore m).sb (mapStore m).disk b = bit m b := by
  have hb : b < 1000 := hb
  have hblock : BBLOCK b (mapStore m).sb = 58 := by
    show b / 4096 + 58 = 58
    omega
  have hmod : b % BPB = b := Nat.mod_eq_of_lt (show b < 4096 by omega)
  unfold inUse
  rw [hblock, hmod]
  rfl

/-- An empty data area: the first block of it is the one that `balloc` returns. -/
theorem balloc_bitmap_empty :
    ∃ s', balloc (mapStore fun k => if k < 7 then 255 else if k = 7 then 7 else 0) = .ok (59, s') := by
  have hall : ∀ b < 59, bit (fun k => if k < 7 then 255 else if k = 7 then 7 else 0) b = true := by
    decide
  have hfree : bit (fun k => if k < 7 then 255 else if k = 7 then 7 else 0) 59 = false := by decide
  have h := balloc_bitmap (mapStore fun k => if k < 7 then 255 else if k = 7 then 7 else 0)
    layout_mkfs.within (by decide) fun b hb hlt => by
      have : BBLOCK b (mapStore fun k => if k < 7 then 255 else if k = 7 then 7 else 0).sb < 59 :=
        layout_mkfs.map b hb
      rw [inUse_mapStore hlt]
      exact hall _ this
  obtain ⟨b, s', hx, hb, hclear, hleast, -⟩ := h.2.1 ⟨59, by decide, by
    rw [inUse_mapStore (by decide), hfree]⟩
  have hb59 : b = 59 := by
    rcases Nat.lt_trichotomy b 59 with hlt | heq | hgt
    · rw [inUse_mapStore hb, hall b hlt] at hclear
      cases hclear
    · exact heq
    · have := hleast 59 hgt
      rw [inUse_mapStore (by decide), hfree] at this
      cases this
  exact ⟨s', by rw [hx, hb59]⟩

/-- A map that marks every block but its own: `balloc` returns the block of the map and zeroes it, and
with it the marks of all other blocks. -/
theorem balloc_wipes_map :
    ∃ s', balloc (mapStore fun k => if k = 7 then 251 else 255) = .ok (58, s') ∧
      inUse .mkfs (mapStore fun k => if k = 7 then 251 else 255).disk 59 = true ∧
      inUse .mkfs s'.disk 59 = false := by
  have hfree : bit (fun k => if k = 7 then 251 else 255) 58 = false := by decide
  have hbefore : ∀ b < 58, bit (fun k => if k = 7 then 251 else 255) b = true := by decide
  have hleast : Least .mkfs (mapStore fun k => if k = 7 then 251 else 255).disk 58 := by
    refine ⟨by decide, ?_, fun c hc => ?_⟩
    · exact (inUse_mapStore (by decide)).trans hfree
    · exact (inUse_mapStore (Nat.lt_trans hc (by decide))).trans (hbefore c hc)
  refine ⟨_, balloc_ok layout_mkfs.within (by decide) hleast, ?_, ?_⟩
  · exact (inUse_mapStore (by decide)).trans (by decide)
  · have hblock : BBLOCK 59 .mkfs = 58 := rfl
    unfold inUse
    rw [hblock, Store.alloc_disk, allocDisk_self]
    rfl

end DuckoUnix.Fs
