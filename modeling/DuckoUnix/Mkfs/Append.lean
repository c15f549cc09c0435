import DuckoUnix.Fs.Files
import DuckoUnix.Mkfs.Model

/-!
# Appending to a file of the image

`iappend` does to the image what the kernel's `writei` would do to it, if the free map were kept as
the counter `freeblock` says: the block that `freeblock++` hands out is the one that the kernel's
`balloc` would find and zero. So a state of `mkfs` is looked at as a store of the kernel in which the
inode is being written to (`Views`), and what is known about `bmap` and `writei` says that no block is
given to two files and which bytes a file has.
-/

namespace DuckoUnix.Mkfs

open Lib Fs Function

variable {E : Exit → Prop} {s s' : Image} {t t' : Store} {din din' : Dinode} {inum fbn b k x : ℕ}
  {p : List (BitVec 8)}

/-! ## The free map -/

theorem bit_bitmap (used j : ℕ) : bit (bitmap used) j = decide (j < used) := by
  induction used with
  | zero => exact BitVec.getLsbD_zero
  | succ used ih =>
    unfold bitmap
    rw [bit_setBit, ih, ← Bool.decide_or]
    exact decide_eq_decide.mpr (by omega)

/-- The image with the free map that `freeblock` stands for. -/
def Image.marked (s : Image) : Disk :=
  update s.img Superblock.mkfs.bmapstart (bitmap s.freeblock)

theorem marked_of_ne (h : b ≠ Superblock.mkfs.bmapstart) : s.marked b = s.img b :=
  update_of_ne h _ _

theorem BBLOCK_mkfs (h : b < BPB) : BBLOCK b .mkfs = Superblock.mkfs.bmapstart := by
  unfold BBLOCK
  rw [Nat.div_eq_of_lt h, Nat.zero_add]

theorem inUse_marked (h : b < BPB) : inUse .mkfs s.marked b = decide (b < s.freeblock) := by
  unfold inUse Image.marked
  rw [BBLOCK_mkfs h, update_self, Nat.mod_eq_of_lt h, bit_bitmap]

theorem lt_BPB (h : b < FSSIZE) : b < BPB := Nat.lt_trans h (by decide)

theorem IBLOCK_ne_bmapstart {i : ℕ} (hi : i < Superblock.mkfs.nino) :
    IBLOCK i .mkfs ≠ Superblock.mkfs.bmapstart := Nat.ne_of_lt (IBLOCK_lt hi)

theorem dinode_marked {i : ℕ} (hi : i < Superblock.mkfs.nino) :
    dinode .mkfs s.marked i = dinode .mkfs s.img i :=
  dinode_congr (marked_of_ne (IBLOCK_ne_bmapstart hi))

theorem freeblock_free (hlt : s.freeblock < FSSIZE) :
    inUse .mkfs s.marked s.freeblock = false := by
  rw [inUse_marked (lt_BPB hlt), decide_eq_false (Nat.lt_irrefl _)]

theorem sector_eq (h : b ≤ FSSIZE) : sector b = b :=
  Nat.mod_eq_of_lt (Nat.lt_of_le_of_lt h (by decide))

/-- Sector `FSSIZE` is past the end of the image file. -/
theorem wp_rsect {Q : Bytes → Image → Prop} (hn : s.nsect = FSSIZE) (hb : b ≤ FSSIZE)
    (hQ : b < FSSIZE → Q (s.img b) s) (hE : b = FSSIZE → E .failed) : wp E (rsect b) Q s := by
  unfold rsect
  rw [wp_bind, wp_get, sector_eq hb, hn]
  exact wp_ite hQ fun hlt => hE (Nat.le_antisymm hb (Nat.le_of_not_lt hlt))

def Image.put (s : Image) (b : ℕ) (m : Bytes) : Image := { s with img := update s.img b m }

theorem put_marked {m : Bytes} (h : b ≠ Superblock.mkfs.bmapstart) :
    (s.put b m).marked = update s.marked b m := by
  unfold Image.marked
  exact update_comm h _ _ _

theorem wp_wsect {m : Bytes} {Q : Unit → Image → Prop} (hn : s.nsect = FSSIZE) (hb : b < FSSIZE)
    (hQ : Q () (s.put b m)) : wp E (wsect b m) Q s := by
  have hmax : max s.nsect (b + 1) = s.nsect := by
    rw [hn]
    exact Nat.max_eq_left hb
  unfold wsect
  rw [wp_modify, sector_eq (Nat.le_of_lt hb), hmax]
  exact hQ

/-! ## The counters -/

/-- Nothing has been written outside of the image, and the blocks from `freeblock` on are zero. -/
structure Fresh (s : Image) : Prop where
  nsect : s.nsect = FSSIZE
  low : nmeta ≤ s.freeblock
  high : s.freeblock ≤ FSSIZE
  zero : ∀ b, s.freeblock ≤ b → b < FSSIZE → s.img b = fun _ => 0
  winodes : ∀ b ∈ s.winodes, Superblock.mkfs.inodestart ≤ b ∧ b < Superblock.mkfs.bmapstart
  assigned : ∀ b ∈ s.assigned, Data .mkfs b

namespace Fresh

variable (h : Fresh s)
include h

theorem data (hlt : s.freeblock < FSSIZE) : Data .mkfs s.freeblock := ⟨h.low, hlt⟩

theorem next (hlt : s.freeblock < FSSIZE) : Fresh s.next where
  nsect := h.nsect
  low := Nat.le_succ_of_le h.low
  high := hlt
  zero b hb := h.zero b (Nat.le_of_succ_le hb)
  winodes := h.winodes
  assigned b hb := by
    rcases List.mem_append.mp hb with hb | hb
    · exact h.assigned b hb
    · rw [List.mem_singleton.mp hb]
      exact h.data hlt

/-- `freeblock++` is the kernel's `balloc` on the map that the counter stands for. -/
theorem marked_next (hlt : s.freeblock < FSSIZE) :
    s.next.marked = allocDisk .mkfs s.marked s.freeblock := by
  have hmap := BBLOCK_mkfs (lt_BPB hlt)
  have hne : s.freeblock ≠ Superblock.mkfs.bmapstart := by
    intro e
    have hlow := h.low
    rw [e] at hlow
    exact absurd hlow (by decide)
  funext c
  unfold allocDisk
  rw [hmap]
  by_cases hc : c = s.freeblock
  · rw [hc, update_self, marked_of_ne hne]
    exact h.zero _ (Nat.le_refl _) hlt
  · rw [update_of_ne hc]
    unfold Image.marked
    rw [update_self, update_idem, Nat.mod_eq_of_lt (lt_BPB hlt)]
    rfl

theorem wsect {m : Bytes} (hlt : b < s.freeblock)
    (hs' : s' = s.put b m) : Fresh s' := by
  rw [hs']
  refine ⟨h.nsect, h.low, h.high, fun c hc hc' => ?_, h.winodes, h.assigned⟩
  have hc : s.freeblock ≤ c := hc
  show update s.img b m c = _
  rw [update_of_ne (by omega)]
  exact h.zero c hc hc'

end Fresh

/-- What appending leaves alone. -/
structure Keeps (s s' : Image) : Prop where
  freeinode : s'.freeinode = s.freeinode
  inodes : s'.inodes = s.inodes
  super : s'.img 1 = s.img 1

theorem Keeps.refl : Keeps s s := ⟨rfl, rfl, rfl⟩

theorem Keeps.trans {s'' : Image} (h : Keeps s s') (h' : Keeps s' s'') : Keeps s s'' :=
  ⟨h'.freeinode.trans h.freeinode, h'.inodes.trans h.inodes, h'.super.trans h.super⟩

theorem keeps_next : Keeps s s.next := ⟨rfl, rfl, rfl⟩

theorem keeps_data {m : Bytes} (hb : Data .mkfs b)
    (hs' : s' = s.put b m) : Keeps s s' := by
  have hne : 1 ≠ b := by
    rintro rfl
    exact absurd hb.1 (by decide)
  rw [hs']
  exact ⟨rfl, rfl, update_of_ne hne _ _⟩

/-! ## The image as a store of the kernel -/

variable {ip : Ip}

/-- The store `t` has the image as its disk, and inode `inum` in place `ip` is being written to. -/
structure Views (ip : Ip) (t : Store) (s : Image) (inum : ℕ) (din : Dinode) : Prop where
  fresh : Fresh s
  sb : t.sb = .mkfs
  disk : t.disk = s.marked
  inum : (t.icache ip).inum = inum
  din : (t.icache ip).din = din
  editing : Editing t ip

namespace Views

variable (h : Views ip t s inum din)
include h

theorem free (hlt : s.freeblock < FSSIZE) : s.freeblock < t.sb.size ∧
    inUse t.sb t.disk s.freeblock = false := by
  rw [h.sb, h.disk]
  exact ⟨hlt, freeblock_free hlt⟩

theorem indirect (h0 : (din.addr NDIRECT).toNat ≠ 0) :
    Data .mkfs (din.addr NDIRECT).toNat ∧ (din.addr NDIRECT).toNat < s.freeblock := by
  have hd := h.editing.own.indirect h.editing.lt h.editing.type' (by
    rw [table_self, h.din]
    exact h0)
  rw [table_self, h.din, h.sb, h.disk] at hd
  obtain ⟨-, hdata, huse⟩ := hd
  rw [inUse_marked (lt_BPB hdata.2)] at huse
  exact ⟨hdata, of_decide_eq_true huse⟩

theorem img_indirect (h0 : (din.addr NDIRECT).toNat ≠ 0) :
    t.disk (din.addr NDIRECT).toNat = s.img (din.addr NDIRECT).toNat := by
  have hlow := (h.indirect h0).1.1
  rw [h.disk]
  refine marked_of_ne fun e => ?_
  rw [e] at hlow
  exact absurd hlow (by decide)

theorem take_addr (hlt : s.freeblock < FSSIZE) (hk : k ≤ NDIRECT) (h0 : (din.addr k).toNat = 0) :
    ∃ t', Views ip t' s.next inum (din.setAddr k (BitVec.ofNat 32 s.freeblock)) ∧
      Attaches ip k s.freeblock t t' := by
  obtain ⟨hlt', hfree⟩ := h.free hlt
  obtain ⟨t', ht'⟩ : ∃ t', t' = { t.alloc s.freeblock with
      icache := update t.icache ip { t.icache ip with
        din := (t.icache ip).din.setAddr k (BitVec.ofNat 32 s.freeblock) } } := ⟨_, rfl⟩
  have ha := h.editing.attaches_addr hlt' hfree hk (by rw [h.din]; exact h0) ht'
  obtain ⟨hed, -, -⟩ := h.editing.attach ha
  have hself : t'.icache ip = { t.icache ip with
      din := (t.icache ip).din.setAddr k (BitVec.ofNat 32 s.freeblock) } := by
    rw [ht']
    exact update_self _ _ _
  refine ⟨t', ⟨h.fresh.next hlt, ha.sb.trans h.sb, ?_, ?_, ?_, hed⟩, ha⟩
  · rw [h.fresh.marked_next hlt, ← h.disk, ← h.sb, ht']
    rfl
  · rw [hself]
    exact h.inum
  · rw [hself]
    exact congrArg (Dinode.setAddr · k _) h.din

theorem take_entry {j : ℕ} (hlt : s.freeblock < FSSIZE) (h0 : (din.addr NDIRECT).toNat ≠ 0)
    (hj : j < NINDIRECT) (hzero : (getAddr (s.img (din.addr NDIRECT).toNat) j).toNat = 0)
    (hs' : s' = s.next.put (din.addr NDIRECT).toNat
      (putAddr (s.img (din.addr NDIRECT).toNat) j (BitVec.ofNat 32 s.freeblock))) :
    ∃ t', Views ip t' s' inum din ∧ Attaches ip (NDIRECT + 1 + j) s.freeblock t t' := by
  obtain ⟨hlt', hfree⟩ := h.free hlt
  obtain ⟨hdata, hused⟩ := h.indirect h0
  have himg := h.img_indirect h0
  obtain ⟨t', ht'⟩ : ∃ t', t' = (t.alloc s.freeblock).write ((t.icache ip).din.addr NDIRECT).toNat
      (putAddr (t.disk ((t.icache ip).din.addr NDIRECT).toNat) j (BitVec.ofNat 32 s.freeblock)) :=
    ⟨_, rfl⟩
  have ha := h.editing.attaches_entry hlt' hfree (by rw [h.din]; exact h0) hj
    (by rw [h.din, himg]; exact hzero) ht'
  obtain ⟨hed, -, -⟩ := h.editing.attach ha
  have hne : (din.addr NDIRECT).toNat ≠ Superblock.mkfs.bmapstart := by
    intro e
    have hlow := hdata.1
    rw [e] at hlow
    exact absurd hlow (by decide)
  have hic : t'.icache = t.icache := by
    rw [ht']
    rfl
  refine ⟨t', ⟨?_, ha.sb.trans h.sb, ?_, by rw [hic, h.inum], by rw [hic, h.din], hed⟩, ha⟩
  · exact (h.fresh.next hlt).wsect (Nat.lt_succ_of_lt hused) hs'
  · rw [hs', put_marked hne, h.fresh.marked_next hlt, ← h.disk, ← h.sb, ← himg, ← h.din, ht']
    rfl

end Views

/-! ## Finding a block of the file -/

theorem wp_setIfZero {Q : Dinode → Image → Prop} (hne : (din.addr k).toNat ≠ 0 → Q din s)
    (hzero : (din.addr k).toNat = 0 → Q (din.setAddr k (BitVec.ofNat 32 s.freeblock)) s.next) :
    wp E (setIfZero din k) Q s := by
  unfold setIfZero
  exact wp_ite hzero hne

theorem toNat_ofNat (h : b ≤ FSSIZE) : (BitVec.ofNat 32 b).toNat = b := by
  rw [BitVec.toNat_ofNat]
  exact Nat.mod_eq_of_lt (Nat.lt_of_le_of_lt h (by decide))

theorem addr_setAddr_self (hk : k ≤ NDIRECT) (h : b ≤ FSSIZE) :
    ((din.setAddr k (BitVec.ofNat 32 b)).addr k).toNat = b := by
  rw [Dinode.addr_setAddr, if_pos ⟨rfl, hk⟩, toNat_ofNat h]

theorem blk_of_attaches (ha : Attaches ip k b t t') (h : Editing t ip) (h' : Editing t' ip) {c : ℕ}
    (hne : slotOf c ≠ k) : t'.blk ip c = t.blk ip c := by
  have hinum : (t'.icache ip).inum = (t.icache ip).inum := by
    obtain ⟨_, he⟩ := ha.entry
    rw [he]
  rw [← h'.refs_blk, ← h.refs_blk, hinum, ha.refs, if_neg fun e => hne (congrArg Prod.snd e)]

/-- Block `x` is block `fbn` of the file now, and every other block of it is the one it was. -/
structure Found (ip : Ip) (fbn x : ℕ) (t : Store) (s : Image) (inum : ℕ) (din' : Dinode)
    (s' : Image) (t' : Store) : Prop where
  views : Views ip t' s' inum din'
  mapped : Mapped ip fbn x t t'
  others : ∀ c, c ≠ fbn → t'.blk ip c = t.blk ip c
  keeps : Keeps s s'
  count : s'.freeblock + needsIndirect t' ip ≤ s.freeblock + 1 + needsIndirect t ip

/-- How the search for block `fbn` may end. A block past the end of the image is noticed when it is
read. -/
structure Finds (E : Exit → Prop) (ip : Ip) (fbn : ℕ) (t : Store) (s : Image) (inum : ℕ)
    (din' : Dinode) (x : ℕ) (s' : Image) : Prop where
  nsect : s'.nsect = FSSIZE
  le : x ≤ FSSIZE
  past : x = FSSIZE → E .failed
  found : x < FSSIZE → ∃ t', Found ip fbn x t s inum din' s' t'

namespace Views

variable (h : Views ip t s inum din)
include h

theorem blk_data (hblk : t.blk ip fbn ≠ 0) :
    Data .mkfs (t.blk ip fbn) ∧ t.blk ip fbn < s.freeblock := by
  have hr : refs t.sb (table t ip) t.disk ((t.icache ip).inum, slotOf fbn) = t.blk ip fbn :=
    h.editing.refs_blk
  have hd := h.editing.own.exact.marked (by rw [hr]; exact hblk)
  rw [hr, h.sb, h.disk] at hd
  obtain ⟨hdata, huse⟩ := hd
  rw [inUse_marked (lt_BPB hdata.2)] at huse
  exact ⟨hdata, of_decide_eq_true huse⟩

theorem blk_lt (hblk : t.blk ip fbn ≠ 0) : t.blk ip fbn < FSSIZE := (h.blk_data hblk).1.2

theorem finds_present (hblk : t.blk ip fbn ≠ 0) : Finds E ip fbn t s inum din (t.blk ip fbn) s where
  nsect := h.fresh.nsect
  le := Nat.le_of_lt (h.blk_lt hblk)
  past e := absurd e (Nat.ne_of_lt (h.blk_lt hblk))
  found _ := ⟨t, h, .found h.editing hblk, fun _ _ => rfl, .refl, by omega⟩

theorem found_attached (hv : Views ip t' s' inum din')
    (ha : Attaches ip (slotOf fbn) s.freeblock t t') (hkeeps : Keeps s s')
    (hcount : s'.freeblock = s.freeblock + 1) : Found ip fbn s.freeblock t s inum din' s' t' := by
  refine ⟨hv, .attached h.editing ha, fun c hc => ?_, hkeeps, ?_⟩
  · exact blk_of_attaches ha h.editing hv.editing fun e => hc (slotOf_inj e)
  · rw [hcount, h.editing.needsIndirect_attached ha (slotOf_ne fbn)]

theorem indirectEntry_wp (hroom : s.freeblock + 1 ≤ FSSIZE ∨ E .failed) (hd : NDIRECT ≤ fbn) (hbn : fbn < MAXFILE)
    (h0 : (din.addr NDIRECT).toNat ≠ 0) :
    wp E (indirectEntry (din.addr NDIRECT).toNat fbn)
      (fun x s' => Finds E ip fbn t s inum din x s') s := by
  obtain ⟨hdata, hused⟩ := h.indirect h0
  have hj : fbn - NDIRECT < NINDIRECT := by
    unfold MAXFILE at hbn
    omega
  have hblk : t.blk ip fbn = (getAddr (s.img (din.addr NDIRECT).toNat) (fbn - NDIRECT)).toNat := by
    rw [blk_indirect hd hbn (by rw [h.din]; exact h0), h.din, h.img_indirect h0]
  have hhigh := h.fresh.high
  unfold indirectEntry
  rw [wp_bind]
  refine wp_rsect h.fresh.nsect (Nat.le_of_lt hdata.2) (fun _ => ?_)
    fun e => absurd hdata.2 (by rw [e]; exact Nat.lt_irrefl _)
  dsimp only
  refine wp_ite (fun hz => ?_) fun hz => ?_
  · unfold nextBlock
    rw [wp_bind, wp_bind, wp_get, wp_bind, wp_set, wp_pure, wp_bind]
    refine wp_wsect (s := s.next) h.fresh.nsect hdata.2 ?_
    rw [wp_pure, toNat_ofNat hhigh]
    refine ⟨h.fresh.nsect, hhigh, fun e => hroom.resolve_left (by omega), fun hlt => ?_⟩
    obtain ⟨t', hv, ha⟩ := h.take_entry hlt h0 hj hz rfl
    rw [← slotOf_indirect hd] at ha
    exact ⟨t', h.found_attached hv ha (keeps_next.trans (keeps_data hdata rfl)) rfl⟩
  · rw [← hblk] at hz ⊢
    exact h.finds_present hz

theorem found_after_indirect {t₁ : Store} {din₁ : Dinode} (hd : NDIRECT ≤ fbn)
    (hv : Views ip t₁ s.next inum din₁) (ha : Attaches ip NDIRECT s.freeblock t t₁)
    (hf : Found ip fbn x t₁ s.next inum din' s' t') : Found ip fbn x t s inum din' s' t' := by
  obtain ⟨h0, hself, hne⟩ := h.editing.indirect_attached ha
  have hneeds : needsIndirect t ip = 1 := if_pos h0
  have hneeds₁ : needsIndirect t₁ ip = 0 := if_neg (by rw [hself]; exact hne)
  refine ⟨hf.views, .after_indirect h.editing ha (blk_none hd h0) hf.mapped, fun c hc => ?_,
    keeps_next.trans hf.keeps, ?_⟩
  · rw [hf.others c hc, blk_of_attaches ha h.editing hv.editing (slotOf_ne c)]
  · have hcount := hf.count
    have hnext : s.next.freeblock = s.freeblock + 1 := rfl
    omega

theorem blockOf_wp (hroom : s.freeblock + 2 ≤ FSSIZE ∨ E .failed) (hbn : fbn < MAXFILE) :
    wp E (blockOf din fbn) (fun r s' => Finds E ip fbn t s inum r.1 r.2 s') s := by
  have hhigh := h.fresh.high
  unfold blockOf
  refine wp_ite (fun hd => ?_) fun hd => ?_
  · rw [wp_bind]
    have hslot : slotOf fbn = fbn := if_pos hd
    refine wp_setIfZero (fun hne => ?_) fun hz => ?_
    · rw [wp_pure]
      rw [← h.din, ← blk_direct hd] at hne ⊢
      rw [h.din]
      exact h.finds_present hne
    · rw [wp_pure]
      dsimp only
      rw [addr_setAddr_self (Nat.le_of_lt hd) hhigh]
      refine ⟨h.fresh.nsect, hhigh, fun e => hroom.resolve_left (by omega), fun hlt => ?_⟩
      obtain ⟨t', hv, ha⟩ := h.take_addr hlt (Nat.le_of_lt hd) hz
      rw [← hslot] at ha
      exact ⟨t', h.found_attached hv ha keeps_next rfl⟩
  · have hd := Nat.le_of_not_lt hd
    rw [wp_bind]
    refine wp_setIfZero (fun hne => ?_) fun hz => ?_
    · rw [wp_bind]
      exact wp_mono (h.indirectEntry_wp (hroom.imp_left Nat.le_of_succ_le) hd hbn hne)
        fun x s' hf => hf
    · rw [wp_bind]
      by_cases hlt : s.freeblock < FSSIZE
      · obtain ⟨t₁, hv, ha⟩ := h.take_addr hlt (Nat.le_refl _) hz
        have hne : ((din.setAddr NDIRECT (BitVec.ofNat 32 s.freeblock)).addr NDIRECT).toNat ≠ 0 := by
          rw [addr_setAddr_self (Nat.le_refl _) hhigh]
          exact layout_mkfs.ne_zero (h.fresh.data hlt)
        refine wp_mono (hv.indirectEntry_wp (hroom.imp_left id) hd hbn hne) fun x s' hf => ?_
        refine ⟨hf.nsect, hf.le, hf.past, fun hx => ?_⟩
        obtain ⟨t', hfound⟩ := hf.found hx
        exact ⟨t', h.found_after_indirect hd hv ha hfound⟩
      · -- the indirect block itself is past the end of the image
        have hend : s.freeblock = FSSIZE := Nat.le_antisymm hhigh (Nat.le_of_not_lt hlt)
        rw [addr_setAddr_self (Nat.le_refl _) hhigh, hend]
        unfold indirectEntry
        rw [wp_bind]
        exact wp_rsect h.fresh.nsect (Nat.le_refl _) (fun hlt => absurd hlt (Nat.lt_irrefl _))
          fun _ => hroom.resolve_left (by omega)

end Views

/-! ## The loop -/

/-- The file has no blocks past its size. -/
def Beyond (ip : Ip) (off : ℕ) (t : Store) : Prop := ∀ c, off ≤ c * BSIZE → t.blk ip c = 0

/-- `p` has been written at `off`. -/
structure Appended (ip : Ip) (off : ℕ) (p : List (BitVec 8)) (t : Store) (s : Image) (inum : ℕ)
    (din' : Dinode) (s' : Image) (t' : Store) : Prop where
  views : Views ip t' s' inum din'
  written : Written ip off p t t'
  beyond : Beyond ip off t → Beyond ip (off + p.length) t'
  keeps : Keeps s s'
  count : s'.freeblock ≤ s.freeblock + 2 * chunks off p.length

theorem data_ne_bmapstart (h : Data .mkfs b) : b ≠ Superblock.mkfs.bmapstart := by
  rintro rfl
  exact absurd h.1 (by decide)

/-- The part of `p` that goes to one block. -/
theorem Found.write {s₁ : Image} {t₁ : Store} {off n : ℕ} (h : Views ip t s inum din)
    (hf : Found ip (off / BSIZE) x t s inum din' s₁ t₁) (hn : n = min p.length (BSIZE - off % BSIZE))
    (hp : p ≠ []) {m : Bytes} (hm : m = blit (s₁.img x) (off % BSIZE) (p.take n)) :
    ∃ t', Appended ip off (p.take n) t s inum din' (s₁.put x m) t' := by
  have hne : t₁.blk ip (off / BSIZE) ≠ 0 := by
    rw [hf.mapped.blk]
    exact hf.mapped.ne
  obtain ⟨hdata, hused⟩ := hf.views.blk_data hne
  rw [hf.mapped.blk] at hdata hused
  have hmap := data_ne_bmapstart hdata
  have hmod := Nat.mod_lt off BSIZE_pos
  have hpos : 0 < p.length := List.length_pos_iff.mpr hp
  have hlen : (p.take n).length = n := by
    rw [List.length_take]
    omega
  obtain ⟨t', ht'⟩ : ∃ t', t' = t₁.write x (blit (t₁.disk x) (off % BSIZE) (p.take n)) := ⟨_, rfl⟩
  obtain ⟨hw, -⟩ := Written.chunk hf.mapped h.editing (by omega) ht' fun hnil => by
    rw [hnil] at hlen
    simp only [List.length_nil] at hlen
    omega
  have hdisk : t₁.disk x = s₁.img x := by
    rw [hf.views.disk, marked_of_ne hmap]
  have hic : t'.icache = t₁.icache := by
    rw [ht']
    rfl
  refine ⟨t', ⟨hf.views.fresh.wsect hused rfl, hw.edit.sb.trans h.sb, ?_, ?_, ?_, hw.editing⟩, hw,
    fun hb c hc => ?_, hf.keeps.trans (keeps_data hdata rfl), ?_⟩
  · rw [put_marked hmap, ← hf.views.disk, hm, ← hdisk, ht']
    rfl
  · rw [hic, hf.views.inum]
  · rw [hic, hf.views.din]
  · rw [← hf.mapped.blk] at ht'
    have hsame := (hf.views.editing.write_data hne ht').2.2.1
    rw [hlen] at hc
    have hcmp : off / BSIZE * BSIZE ≤ off := Nat.div_mul_le_self _ _
    have hlt : off / BSIZE < c := by
      unfold BSIZE at *
      omega
    rw [hsame, hf.others c (Nat.ne_of_gt hlt)]
    exact hb c (by omega)
  · have hcount := hf.count
    have hone : chunks off n ≠ 0 := by
      unfold chunks
      rw [if_neg (by omega)]
      unfold BSIZE at *
      omega
    have hneeds : needsIndirect t ip ≤ 1 := by
      unfold needsIndirect
      split_ifs
      · exact Nat.le_refl _
      · exact Nat.zero_le _
    rw [hlen]
    show s₁.freeblock ≤ _
    omega

theorem Appended.nil {off : ℕ} (h : Views ip t s inum din) : Appended ip off [] t s inum din s t :=
  ⟨h, .nil h.editing off, fun hb => hb, .refl, Nat.le_add_right _ _⟩

theorem Appended.append {s₁ : Image} {t₁ : Store} {off : ℕ} {q : List (BitVec 8)}
    (ht : Editing t ip) (h : Appended ip off p t s inum din s₁ t₁)
    (h' : Appended ip (off + p.length) q t₁ s₁ inum din' s' t')
    (hcount : chunks off (p ++ q).length = chunks off p.length + chunks (off + p.length) q.length) :
    Appended ip off (p ++ q) t s inum din' s' t' where
  views := h'.views
  written := h.written.append ht h'.written
  beyond hb := by
    rw [List.length_append, ← Nat.add_assoc]
    exact h'.beyond (h.beyond hb)
  keeps := h.keeps.trans h'.keeps
  count := by
    have hc := h.count
    have hc' := h'.count
    omega

theorem appendLoop_wp {n off : ℕ} (h : Views ip t s inum din) (hn : p.length ≤ n)
    (hmax : off + p.length ≤ MAXFILE * BSIZE ∨ E .abort)
    (hroom : s.freeblock + 2 * chunks off p.length ≤ FSSIZE ∨ E .failed) :
    wp E (appendLoop n din off p) (fun r s' => r.2 = off + p.length ∧
      ∃ t', Appended ip off p t s inum r.1 s' t') s := by
  induction n generalizing off p s t din with
  | zero =>
    have hnil : p = [] := List.length_eq_zero_iff.mp (Nat.le_zero.mp hn)
    subst hnil
    exact ⟨rfl, t, .nil h⟩
  | succ n ih =>
    unfold appendLoop
    refine wp_ite (fun hnil => ?_) fun hp => ?_
    · subst hnil
      exact ⟨rfl, t, .nil h⟩
    have hpos : 0 < p.length := List.length_pos_iff.mpr hp
    refine wp_ite (fun hbn => ?_) fun hbn => ?_
    · have hcount := chunks_succ off (Nat.ne_of_gt hpos)
      have hrem : (off / BSIZE + 1) * BSIZE - off = BSIZE - off % BSIZE := by
        unfold BSIZE
        omega
      have hin : off - off / BSIZE * BSIZE = off % BSIZE := by
        unfold BSIZE
        omega
      rw [wp_bind]
      refine wp_mono (h.blockOf_wp (hroom.imp_left (by omega)) hbn) fun r s₁ hf => ?_
      obtain ⟨din₁, x⟩ := r
      dsimp only at hf ⊢
      rw [wp_bind, hrem, hin]
      refine wp_rsect hf.nsect hf.le (fun hx => ?_) hf.past
      obtain ⟨t₁, hfound⟩ := hf.found hx
      obtain ⟨t₂, ha⟩ := hfound.write h rfl hp rfl
      rw [wp_bind]
      refine wp_wsect hf.nsect hx ?_
      generalize hm : min p.length (BSIZE - off % BSIZE) = m at *
      have hmod := Nat.mod_lt off BSIZE_pos
      have htake : (p.take m).length = m := by
        rw [List.length_take]
        omega
      have hdrop : (p.drop m).length = p.length - m := List.length_drop
      have hone := ha.count
      have hbound : chunks off m = 1 := by
        unfold chunks
        rw [if_neg (by omega)]
        unfold BSIZE at *
        omega
      rw [htake, hbound] at hone
      refine wp_mono (ih ha.views (by omega) (hmax.imp_left (by omega)) (hroom.imp_left ?_)) ?_
      · rw [hdrop]
        omega
      · rintro ⟨din', off'⟩ s' ⟨hoff, t', hrest⟩
        refine ⟨by dsimp only at hoff ⊢; omega, t', ?_⟩
        have happ := Appended.append h.editing ha (by rw [htake]; exact hrest) (by
          rw [List.take_append_drop, htake, hdrop, hbound, hcount])
        rwa [List.take_append_drop] at happ
    · refine hmax.resolve_left fun hle => hbn ?_
      exact Nat.div_lt_of_lt_mul (by rw [Nat.mul_comm]; omega)

end DuckoUnix.Mkfs
