import DuckoUnix.Fs.Blocks

/-!
# The blocks of a file

`bmap` finds the block of a file or attaches a new one. While `writei` runs, the inode in memory is
ahead of the one on the disk, so the owners of blocks are those of the table with the inode as it is
in memory. `Edit` is what may happen to the store meanwhile: the file may get blocks, and the other
files stay as they are.
-/

namespace DuckoUnix.Fs

open Lib Function

variable {sb : Superblock} {T T' : ℕ → Dinode} {d d' : Disk} {i j k b bn : ℕ} {s s' s'' : Store}
  {ip : Ip}

/-! ## The table with an inode in memory -/

/-- The inodes on the disk, with the one in place `ip` of the cache as it is in memory. -/
def table (s : Store) (ip : Ip) : ℕ → Dinode :=
  update (dinode s.sb s.disk) (s.icache ip).inum (s.icache ip).din

theorem table_self : table s ip (s.icache ip).inum = (s.icache ip).din := update_self _ _ _

theorem table_of_ne (h : i ≠ (s.icache ip).inum) : table s ip i = dinode s.sb s.disk i :=
  update_of_ne h _ _

theorem refs_table (hT : ∀ i < sb.nino, T' i = T i) (x : ℕ × ℕ) :
    refs sb T' d x = refs sb T d x :=
  refs_congr (fun i hi => by rw [hT i hi]) (fun i hi _ => by rw [hT i hi]) (fun _ _ _ _ => rfl) x

def Store.refs (s : Store) (ip : Ip) : ℕ × ℕ → ℕ := Fs.refs s.sb (table s ip) s.disk

/-- The inode in place `ip` is being written to. -/
structure Editing (s : Store) (ip : Ip) : Prop where
  layout : Layout s.sb s.fssize
  own : Owned s.sb (table s ip) s.disk
  lt : (s.icache ip).inum < s.sb.nino
  type : (s.icache ip).din.type ≠ T_FREE
  op : 0 < s.outstanding

theorem Editing.type' (h : Editing s ip) : (table s ip (s.icache ip).inum).type ≠ T_FREE := by
  rw [table_self]
  exact h.type

theorem Editing.refs_self (h : Editing s ip) :
    s.refs ip ((s.icache ip).inum, k) = refAt s.disk (s.icache ip).din k := by
  unfold Store.refs
  rw [refs_of h.lt h.type', table_self]

/-- What no operation on a file changes. -/
structure Fixed (s s' : Store) : Prop where
  sb : s'.sb = s.sb
  fssize : s'.fssize = s.fssize
  outstanding : s'.outstanding = s.outstanding
  readAllocs : s'.readAllocs = s.readAllocs
  stale : s'.stale = s.stale

theorem Fixed.trans (h : Fixed s s') (h' : Fixed s' s'') : Fixed s s'' :=
  ⟨h'.sb.trans h.sb, h'.fssize.trans h.fssize, h'.outstanding.trans h.outstanding,
    h'.readAllocs.trans h.readAllocs, h'.stale.trans h.stale⟩

theorem Fixed.layout (h : Fixed s s') (L : Layout s.sb s.fssize) : Layout s'.sb s'.fssize := by
  rw [h.sb, h.fssize]
  exact L

/-- What writing to the inode in place `ip` may do to the store. -/
structure Edit (ip : Ip) (s s' : Store) : Prop extends Fixed s s' where
  others : ∀ jp, jp ≠ ip → s'.icache jp = s.icache jp
  entry : ∃ addrs, s'.icache ip =
    { s.icache ip with din := { (s.icache ip).din with addrs := addrs } }
  inodes : ∀ j < s.sb.nino, s'.disk (IBLOCK j s.sb) = s.disk (IBLOCK j s.sb)
  keep : ∀ x, s.refs ip x ≠ 0 → s'.refs ip x = s.refs ip x
  rest : ∀ x, x.1 ≠ (s.icache ip).inum → s'.refs ip x = s.refs ip x
  data : ∀ x, x.1 ≠ (s.icache ip).inum → s.refs ip x ≠ 0 →
    s'.disk (s.refs ip x) = s.disk (s.refs ip x)

namespace Edit

theorem refl (ip : Ip) (s : Store) : Edit ip s s :=
  ⟨⟨rfl, rfl, rfl, rfl, rfl⟩, fun _ _ => rfl, ⟨_, rfl⟩, fun _ _ => rfl, fun _ _ => rfl,
    fun _ _ => rfl, fun _ _ _ => rfl⟩

theorem inum (h : Edit ip s s') : (s'.icache ip).inum = (s.icache ip).inum := by
  obtain ⟨_, he⟩ := h.entry
  rw [he]

theorem trans (h : Edit ip s s') (h' : Edit ip s' s'') : Edit ip s s'' where
  toFixed := h.toFixed.trans h'.toFixed
  others jp hj := (h'.others jp hj).trans (h.others jp hj)
  entry := by
    obtain ⟨a, he⟩ := h.entry
    obtain ⟨a', he'⟩ := h'.entry
    exact ⟨a', by rw [he', he]⟩
  inodes j hj := by
    have := h'.inodes j (by rw [h.sb]; exact hj)
    rw [h.sb] at this
    rw [this, h.inodes j hj]
  keep x hx := by
    have hk := h.keep x hx
    rw [h'.keep x (by rw [hk]; exact hx), hk]
  rest x hx := by
    rw [h'.rest x (by rw [h.inum]; exact hx), h.rest x hx]
  data x hx h0 := by
    have hr := h.rest x hx
    have := h'.data x (by rw [h.inum]; exact hx) (by rw [hr]; exact h0)
    rw [hr] at this
    rw [this, h.data x hx h0]

end Edit

/-- The blocks of the file itself, its indirect block aside, have kept their contents. -/
def KeepsData (ip : Ip) (s s' : Store) : Prop :=
  ∀ k, k ≠ NDIRECT → s.refs ip ((s.icache ip).inum, k) ≠ 0 →
    s'.disk (s.refs ip ((s.icache ip).inum, k)) = s.disk (s.refs ip ((s.icache ip).inum, k))

theorem KeepsData.trans (h : KeepsData ip s s') (h' : KeepsData ip s' s'') (he : Edit ip s s') :
    KeepsData ip s s'' := by
  intro k hk h0
  have hr := he.keep _ h0
  have := h' k hk (by rw [he.inum, hr]; exact h0)
  rw [he.inum, hr] at this
  rw [this, h k hk h0]

/-- The kernel has run out of blocks: fewer than `n` were free in `s`. -/
def OutOfBlocks (s : Store) (n : ℕ) : Halt → Prop := fun h =>
  h.1 = .outOfBlocks ∧ nfree s.sb s.disk < n

/-! ## Allocating for an inode -/

/-- Since `s`, only blocks of `B` have been passed to `log_write`. -/
def Logs (s s' : Store) (B : Finset ℕ) : Prop := ∃ l, s'.logged = s.logged ++ l ∧ ∀ b ∈ l, b ∈ B

def indirects (s : Store) (ip : Ip) : Finset ℕ :=
  if ((s.icache ip).din.addr NDIRECT).toNat = 0 then ∅ else {((s.icache ip).din.addr NDIRECT).toNat}

theorem indirects_of_ne (h : ((s.icache ip).din.addr NDIRECT).toNat ≠ 0) :
    indirects s ip = {((s.icache ip).din.addr NDIRECT).toNat} := if_neg h

/-- A step that takes up the free block `b` as reference `k` of the inode in place `ip`. It may write
to the indirect block of the inode and to no other block that is referred to. -/
structure Attaches (ip : Ip) (k b : ℕ) (s s' : Store) : Prop extends Fixed s s' where
  lt : b < s.sb.size
  free : inUse s.sb s.disk b = false
  others : ∀ jp, jp ≠ ip → s'.icache jp = s.icache jp
  entry : ∃ addrs, s'.icache ip =
    { s.icache ip with din := { (s.icache ip).din with addrs := addrs } }
  disk : ∀ c, c ≠ b → c ≠ BBLOCK b s.sb → (((s.icache ip).din.addr NDIRECT).toNat ≠ 0 →
    c ≠ ((s.icache ip).din.addr NDIRECT).toNat) → s'.disk c = s.disk c
  used : ∀ c < s.sb.size, inUse s.sb s'.disk c = inUse s.sb (allocDisk s.sb s.disk b) c
  none : s.refs ip ((s.icache ip).inum, k) = 0
  refs : ∀ y, s'.refs ip y = if y = ((s.icache ip).inum, k) then b else s.refs ip y
  logged : Logs s s' (insert b {BBLOCK b s.sb} ∪ indirects s' ip)

namespace Editing

variable (h : Editing s ip)
include h

theorem indirect (h0 : ((s.icache ip).din.addr NDIRECT).toNat ≠ 0) :
    s.refs ip ((s.icache ip).inum, NDIRECT) = ((s.icache ip).din.addr NDIRECT).toNat ∧
      Data s.sb ((s.icache ip).din.addr NDIRECT).toNat := by
  have hi := h.own.indirect h.lt h.type' (by rw [table_self]; exact h0)
  rw [table_self] at hi
  exact ⟨hi.1, hi.2.1⟩

theorem attaches_ref (ha : Attaches ip k b s s') {x : ℕ × ℕ} (hx : s.refs ip x ≠ 0)
    (hne : x ≠ ((s.icache ip).inum, NDIRECT)) : s'.disk (s.refs ip x) = s.disk (s.refs ip x) := by
  refine ha.disk _ (h.own.exact.ne_of_free ha.free hx) (h.layout.ne_BBLOCK (h.own.data hx) ha.lt)
    fun h0 e => hne ?_
  rw [← (h.indirect h0).1] at e h0
  exact h.own.exact.inj h0 e

theorem attaches_inode (ha : Attaches ip k b s s') (hj : j < s.sb.nino) :
    s'.disk (IBLOCK j s.sb) = s.disk (IBLOCK j s.sb) :=
  ha.disk _ (h.layout.ne_IBLOCK (h.own.data_of_free ha.lt ha.free) hj).symm (IBLOCK_ne_BBLOCK hj)
    fun h0 => (h.layout.ne_IBLOCK (h.indirect h0).2 hj).symm

theorem attach (ha : Attaches ip k b s s') : Editing s' ip ∧ Edit ip s s' ∧ KeepsData ip s s' := by
  have hinum : (s'.icache ip).inum = (s.icache ip).inum := by
    obtain ⟨_, he⟩ := ha.entry
    rw [he]
  refine ⟨⟨ha.layout h.layout, ?_, ?_, ?_, ?_⟩, ⟨ha.toFixed, ha.others, ha.entry,
    fun j hj => h.attaches_inode ha hj, fun x hx => ?_, fun x hx => ?_, fun x hx h0 => ?_⟩,
    fun k' hk' h0 => ?_⟩
  · rw [ha.sb]
    refine h.own.attach h.layout ha.lt ha.free ha.none (fun y => ?_) ha.used
    have := ha.refs y
    unfold Store.refs at this
    rwa [ha.sb] at this
  · rw [hinum, ha.sb]
    exact h.lt
  · obtain ⟨_, he⟩ := ha.entry
    rw [he]
    exact h.type
  · rw [ha.outstanding]
    exact h.op
  · rw [ha.refs, if_neg fun e => hx (by rw [e, ha.none])]
  · rw [ha.refs, if_neg fun e => hx (by rw [e])]
  · exact h.attaches_ref ha h0 fun e => hx (by rw [e])
  · exact h.attaches_ref ha h0 fun e => hk' (congrArg Prod.snd e)

theorem attaches_nfree (ha : Attaches ip k b s s') :
    nfree s'.sb s'.disk + 1 = nfree s.sb s.disk := by
  rw [ha.sb]
  refine nfree_insert ha.lt ha.free fun c hc => ?_
  rw [ha.used c hc, inUse_alloc h.layout h.own ha.lt ha.free hc]

theorem addr_attached (ha : Attaches ip k b s s') : ((s'.icache ip).din.addr NDIRECT).toNat =
    if k = NDIRECT then b else ((s.icache ip).din.addr NDIRECT).toNat := by
  obtain ⟨hed, hedit, -⟩ := h.attach ha
  rw [← refAt_direct (d := s'.disk) (Nat.le_refl _), ← hed.refs_self, hedit.inum, ha.refs]
  by_cases e : k = NDIRECT
  · rw [e, if_pos rfl, if_pos rfl]
  · rw [if_neg fun h => e (congrArg Prod.snd h).symm, if_neg e, h.refs_self,
      refAt_direct (Nat.le_refl _)]

theorem indirect_attached (ha : Attaches ip NDIRECT b s s') :
    ((s.icache ip).din.addr NDIRECT).toNat = 0 ∧
      ((s'.icache ip).din.addr NDIRECT).toNat = b ∧ b ≠ 0 := by
  refine ⟨?_, by rw [h.addr_attached ha, if_pos rfl],
    h.layout.ne_zero (h.own.data_of_free ha.lt ha.free)⟩
  rw [← refAt_direct (d := s.disk) (Nat.le_refl _), ← h.refs_self, ha.none]

variable (hb : b < s.sb.size) (hfree : inUse s.sb s.disk b = false)
include hb hfree

/-- The block becomes block number `k` of the inode. -/
theorem attaches_addr (hk : k ≤ NDIRECT) (h0 : ((s.icache ip).din.addr k).toNat = 0)
    (hs' : s' = { s.alloc b with icache := update s.icache ip { s.icache ip with
      din := (s.icache ip).din.setAddr k (BitVec.ofNat 32 b) } }) : Attaches ip k b s s' := by
  have hself : s'.icache ip =
      { s.icache ip with din := (s.icache ip).din.setAddr k (BitVec.ofNat 32 b) } := by
    rw [hs']
    exact update_self _ _ _
  have hdisk : s'.disk = allocDisk s.sb s.disk b := by rw [hs']; rfl
  have hsb : s'.sb = s.sb := by rw [hs']; rfl
  refine ⟨by rw [hs']; exact ⟨rfl, rfl, rfl, rfl, rfl⟩, hb, hfree, fun jp hj => ?_, ⟨_, hself⟩,
    fun c hc hc' _ => ?_, fun c _ => by rw [hdisk], ?_, fun y => ?_, [BBLOCK b s.sb, b], ?_,
    fun c hc => Finset.mem_union_left _ (by simpa [or_comm] using hc)⟩
  · rw [hs']
    exact update_of_ne hj _ _
  · rw [hdisk]
    exact allocDisk_of_ne hc hc'
  · rw [h.refs_self, refAt_direct hk, h0]
  · have hT := refs_attach_addr h.layout h.own h.lt h.type' hb hfree hk
      (by rw [table_self]; exact h0) y
    rw [table_self] at hT
    unfold Store.refs
    rw [← hT, hsb, hdisk]
    refine refs_table (fun j hj => ?_) y
    unfold table
    rw [hself, hsb, hdisk]
    by_cases e : j = (s.icache ip).inum
    · rw [e, update_self, update_self]
    · rw [update_of_ne e, update_of_ne e, update_of_ne e]
      exact dinode_congr (allocDisk_of_ne
        (h.layout.ne_IBLOCK (h.own.data_of_free hb hfree) hj).symm (IBLOCK_ne_BBLOCK hj))
  · rw [hs']
    exact List.append_assoc _ [_] [_]

/-- The block becomes entry `j` of the indirect block of the inode. -/
theorem attaches_entry (h0 : ((s.icache ip).din.addr NDIRECT).toNat ≠ 0) (hj : j < NINDIRECT)
    (hzero : (getAddr (s.disk ((s.icache ip).din.addr NDIRECT).toNat) j).toNat = 0)
    (hs' : s' = (s.alloc b).write ((s.icache ip).din.addr NDIRECT).toNat
      (putAddr (s.disk ((s.icache ip).din.addr NDIRECT).toNat) j (BitVec.ofNat 32 b))) :
    Attaches ip (NDIRECT + 1 + j) b s s' := by
  obtain ⟨-, hdata⟩ := h.indirect h0
  have hdisk : s'.disk = update (allocDisk s.sb s.disk b)
      ((s.icache ip).din.addr NDIRECT).toNat
      (putAddr (s.disk ((s.icache ip).din.addr NDIRECT).toNat) j (BitVec.ofNat 32 b)) := by
    rw [hs']
    rfl
  have hsb : s'.sb = s.sb := by rw [hs']; rfl
  have hic : s'.icache = s.icache := by rw [hs']; rfl
  refine ⟨by rw [hs']; exact ⟨rfl, rfl, rfl, rfl, rfl⟩, hb, hfree, fun jp _ => by rw [hic],
    ⟨_, by rw [hic]⟩, fun c hc hc' hind => ?_, fun c hc => ?_, ?_, fun y => ?_,
    [BBLOCK b s.sb, b, ((s.icache ip).din.addr NDIRECT).toNat], ?_, fun c hc => ?_⟩
  · rw [hdisk, update_of_ne (hind h0)]
    exact allocDisk_of_ne hc hc'
  · rw [hdisk]
    exact inUse_congr (update_of_ne (h.layout.ne_BBLOCK hdata hc).symm _ _)
  · rw [h.refs_self, refAt_entry h0 hj, hzero]
  · have hT := refs_attach_entry h.layout h.own h.lt h.type' hb hfree
      (by rw [table_self]; exact h0) hj y
    rw [table_self] at hT
    unfold Store.refs
    rw [← hT, hsb, hdisk]
    refine refs_table (fun i hi => ?_) y
    unfold table
    rw [hic, hsb, hdisk]
    by_cases e : i = (s.icache ip).inum
    · rw [e, update_self, update_self]
    · rw [update_of_ne e, update_of_ne e]
      refine dinode_congr ?_
      rw [update_of_ne (h.layout.ne_IBLOCK hdata hi).symm]
      exact allocDisk_of_ne (h.layout.ne_IBLOCK (h.own.data_of_free hb hfree) hi).symm
        (IBLOCK_ne_BBLOCK hi)
  · rw [hs']
    show ((s.logged ++ [_]) ++ [_]) ++ [_] = _
    simp
  · rw [indirects_of_ne (by rw [hic]; exact h0), hic]
    simp only [List.mem_cons, List.not_mem_nil, or_false] at hc
    simp only [Finset.mem_union, Finset.mem_insert, Finset.mem_singleton]
    tauto

end Editing

/-! ## `bmap` -/

/-- The reference that leads to block `bn` of a file. -/
def slotOf (bn : ℕ) : ℕ := if bn < NDIRECT then bn else bn + 1

theorem slotOf_ne (bn : ℕ) : slotOf bn ≠ NDIRECT := by
  unfold slotOf
  split_ifs
  · omega
  · omega

theorem slotOf_inj (h : slotOf bn = slotOf b) : bn = b := by
  unfold slotOf at h
  split_ifs at h
  all_goals omega

/-- Block `bn` of a file; 0 if there is none. -/
def blockAt (d : Disk) (di : Dinode) (bn : ℕ) : ℕ := refAt d di (slotOf bn)

/-- Block `bn` of the file in place `ip`. -/
def Store.blk (s : Store) (ip : Ip) (bn : ℕ) : ℕ := blockAt s.disk (s.icache ip).din bn

theorem blk_direct (h : bn < NDIRECT) : s.blk ip bn = ((s.icache ip).din.addr bn).toNat := by
  unfold Store.blk blockAt slotOf
  rw [if_pos h, refAt_direct (Nat.le_of_lt h)]

theorem slotOf_indirect (h : NDIRECT ≤ bn) : slotOf bn = NDIRECT + 1 + (bn - NDIRECT) := by
  unfold slotOf
  rw [if_neg (Nat.not_lt.mpr h)]
  omega

theorem blk_indirect (h : NDIRECT ≤ bn) (hbn : bn < MAXFILE)
    (h0 : ((s.icache ip).din.addr NDIRECT).toNat ≠ 0) : s.blk ip bn =
      (getAddr (s.disk ((s.icache ip).din.addr NDIRECT).toNat) (bn - NDIRECT)).toNat := by
  unfold Store.blk blockAt
  rw [slotOf_indirect h, refAt_entry h0]
  unfold MAXFILE at hbn
  omega

theorem blk_none (h : NDIRECT ≤ bn) (h0 : ((s.icache ip).din.addr NDIRECT).toNat = 0) :
    s.blk ip bn = 0 := by
  unfold Store.blk blockAt
  rw [slotOf_indirect h, refAt_none (by omega) h0]

theorem Editing.refs_blk (h : Editing s ip) :
    s.refs ip ((s.icache ip).inum, slotOf bn) = s.blk ip bn := h.refs_self

theorem bmap_found {E : Halt → Prop} {Q : ℕ → Store → Prop} (hbn : bn < MAXFILE)
    (hind : ((s.icache ip).din.addr NDIRECT).toNat ≠ 0 →
      ((s.icache ip).din.addr NDIRECT).toNat < s.fssize)
    (hblk : s.blk ip bn ≠ 0) (hQ : Q (s.blk ip bn) s) : wp E (bmap ip bn) Q s := by
  unfold bmap
  by_cases hd : bn < NDIRECT
  · rw [if_pos hd]
    rw [blk_direct hd] at hblk hQ
    unfold addrOrAlloc inode
    rw [wp_bind, wp_bind, wp_get, wp_pure]
    dsimp only
    rw [if_neg hblk]
    exact hQ
  · have hd := Nat.le_of_not_lt hd
    have hlt : bn - NDIRECT < NINDIRECT := by
      unfold MAXFILE at hbn
      omega
    have h0 : ((s.icache ip).din.addr NDIRECT).toNat ≠ 0 := fun h0 => hblk (blk_none hd h0)
    rw [blk_indirect hd hbn h0] at hblk hQ
    rw [if_neg (Nat.not_lt.mpr hd), if_pos hlt]
    unfold addrOrAlloc inode
    rw [wp_bind, wp_bind, wp_bind, wp_get, wp_pure]
    dsimp only
    rw [if_neg h0, wp_pure, wp_bind]
    refine wp_bread (hind h0) ?_
    rw [if_neg hblk]
    exact hQ

theorem addrOrAlloc_spec {E : Halt → Prop} (h : Editing s ip)
    (hE : (∀ c < s.sb.size, inUse s.sb s.disk c = true) → E (.outOfBlocks, s)) :
    wp E (addrOrAlloc ip k) (fun a s' =>
      (((s.icache ip).din.addr k).toNat ≠ 0 ∧ a = ((s.icache ip).din.addr k).toNat ∧ s' = s) ∨
      (((s.icache ip).din.addr k).toNat = 0 ∧ a < s.sb.size ∧ inUse s.sb s.disk a = false ∧
        s' = { s.alloc a with icache := update s.icache ip { s.icache ip with
          din := (s.icache ip).din.setAddr k (BitVec.ofNat 32 a) } })) s := by
  unfold addrOrAlloc inode
  rw [wp_bind, wp_bind, wp_get, wp_pure]
  dsimp only
  by_cases h0 : ((s.icache ip).din.addr k).toNat = 0
  · rw [if_pos h0, wp_bind]
    refine wp_mono (balloc_spec h.layout.within h.op hE) ?_
    rintro a s' ⟨hleast, rfl⟩
    exact Or.inr ⟨h0, hleast.lt, hleast.free, rfl⟩
  · rw [if_neg h0]
    exact Or.inl ⟨h0, rfl, rfl⟩

def needsIndirect (s : Store) (ip : Ip) : ℕ :=
  if ((s.icache ip).din.addr NDIRECT).toNat = 0 then 1 else 0

/-- `bmap` returns the block of the file; if the file had none, it has got one. -/
structure Mapped (ip : Ip) (bn a : ℕ) (s s' : Store) : Prop where
  editing : Editing s' ip
  edit : Edit ip s s'
  keeps : KeepsData ip s s'
  blk : s'.blk ip bn = a
  ne : a ≠ 0
  same : s.blk ip bn ≠ 0 → s' = s
  nfree : nfree s.sb s.disk + needsIndirect s' ip ≤ nfree s'.sb s'.disk + 1 + needsIndirect s ip

theorem Mapped.found (h : Editing s ip) (hblk : s.blk ip bn ≠ 0) :
    Mapped ip bn (s.blk ip bn) s s :=
  ⟨h, Edit.refl ip s, fun _ _ _ => rfl, rfl, hblk, fun _ => rfl, by omega⟩

theorem Editing.needsIndirect_attached {a : ℕ} (h : Editing s ip) (ha : Attaches ip k a s s')
    (hk : k ≠ NDIRECT) : needsIndirect s' ip = needsIndirect s ip := by
  unfold needsIndirect
  rw [h.addr_attached ha, if_neg hk]

theorem Mapped.attached {a : ℕ} (h : Editing s ip) (ha : Attaches ip (slotOf bn) a s s') :
    Mapped ip bn a s s' := by
  obtain ⟨hed, hedit, hkeep⟩ := h.attach ha
  have hself : s'.blk ip bn = a := by
    rw [← hed.refs_blk, hedit.inum, ha.refs, if_pos rfl]
  have hnone : s.blk ip bn = 0 := by rw [← h.refs_blk, ha.none]
  refine ⟨hed, hedit, hkeep, hself, ?_, fun h => absurd hnone h, ?_⟩
  · exact h.layout.ne_zero (h.own.data_of_free ha.lt ha.free)
  · have := h.attaches_nfree ha
    rw [h.needsIndirect_attached ha (slotOf_ne bn)]
    omega

theorem Mapped.after_indirect {a a' : ℕ} (h : Editing s ip) (ha : Attaches ip NDIRECT a s s')
    (hblk : s.blk ip bn = 0) (hm : Mapped ip bn a' s' s'') : Mapped ip bn a' s s'' := by
  obtain ⟨-, hedit, hkeep⟩ := h.attach ha
  obtain ⟨h0, hself, ha0⟩ := h.indirect_attached ha
  have hneed : needsIndirect s ip = 1 := if_pos h0
  have hneed' : needsIndirect s' ip = 0 := if_neg (by rw [hself]; exact ha0)
  refine ⟨hm.editing, hedit.trans hm.edit, hkeep.trans hm.keeps hedit, hm.blk, hm.ne,
    fun hb => absurd hblk hb, ?_⟩
  have := hm.nfree
  have := h.attaches_nfree ha
  omega

section Wp

variable {E : Halt → Prop} {Q : ℕ → Store → Prop}

theorem bmap_entry (h : Editing s ip) (hd : NDIRECT ≤ bn) (hbn : bn < MAXFILE)
    (h0 : ((s.icache ip).din.addr NDIRECT).toNat ≠ 0)
    (hfound : s.blk ip bn ≠ 0 → Q (s.blk ip bn) s)
    (hfull : (∀ c < s.sb.size, inUse s.sb s.disk c = true) → E (.outOfBlocks, s))
    (hone : ∀ a s', Attaches ip (slotOf bn) a s s' → Q a s') :
    wp E (do
      let bp ← bread ((s.icache ip).din.addr NDIRECT).toNat
      let addr := (getAddr bp (bn - NDIRECT)).toNat
      if addr = 0 then
        let b ← balloc
        log_write ((s.icache ip).din.addr NDIRECT).toNat
          (putAddr bp (bn - NDIRECT) (BitVec.ofNat 32 b))
        return b
      else return addr) Q s := by
  have hlt : bn - NDIRECT < NINDIRECT := by
    unfold MAXFILE at hbn
    omega
  rw [wp_bind]
  refine wp_bread (h.layout.lt (h.indirect h0).2.2) ?_
  dsimp only
  by_cases hz : (getAddr (s.disk ((s.icache ip).din.addr NDIRECT).toNat) (bn - NDIRECT)).toNat = 0
  · rw [if_pos hz, wp_bind]
    refine wp_mono (balloc_spec h.layout.within h.op hfull) ?_
    rintro a s' ⟨hleast, rfl⟩
    rw [wp_bind]
    refine wp_log_write (show 0 < (s.alloc a).outstanding from h.op) (hone a _ ?_)
    rw [slotOf_indirect hd]
    exact h.attaches_entry hleast.lt hleast.free h0 hlt hz rfl
  · rw [if_neg hz, wp_pure]
    rw [← blk_indirect hd hbn h0] at hz ⊢
    exact hfound hz

/-- `bmap` finds the block, or it attaches a new one, perhaps after an indirect block. -/
theorem bmap_wp (h : Editing s ip) (hbn : bn < MAXFILE)
    (hfound : s.blk ip bn ≠ 0 → Q (s.blk ip bn) s)
    (hfull : (∀ c < s.sb.size, inUse s.sb s.disk c = true) → E (.outOfBlocks, s))
    (hone : ∀ a s', Attaches ip (slotOf bn) a s s' → Q a s')
    (htwo : ∀ i t, Attaches ip NDIRECT i s t → s.blk ip bn = 0 →
      ((∀ c < t.sb.size, inUse t.sb t.disk c = true) → E (.outOfBlocks, t)) ∧
        ∀ a s', Attaches ip (slotOf bn) a t s' → Q a s') : wp E (bmap ip bn) Q s := by
  unfold bmap
  by_cases hd : bn < NDIRECT
  · rw [if_pos hd]
    refine wp_mono (addrOrAlloc_spec h hfull) ?_
    rintro a s' (⟨h0, rfl, rfl⟩ | ⟨h0, hlt, hfree, hs'⟩)
    · rw [← blk_direct hd] at h0 ⊢
      exact hfound h0
    · refine hone a s' ?_
      rw [slotOf, if_pos hd]
      exact h.attaches_addr hlt hfree (Nat.le_of_lt hd) h0 hs'
  · have hd := Nat.le_of_not_lt hd
    have hlt : bn - NDIRECT < NINDIRECT := by
      unfold MAXFILE at hbn
      omega
    rw [if_neg (Nat.not_lt.mpr hd), if_pos hlt, wp_bind]
    refine wp_mono (addrOrAlloc_spec h hfull) ?_
    rintro i t (⟨h0, rfl, rfl⟩ | ⟨h0, hlt, hfree, ht⟩)
    · exact bmap_entry h hd hbn h0 hfound hfull hone
    · have ha := h.attaches_addr hlt hfree (Nat.le_refl _) h0 ht
      obtain ⟨hed, hedit, -⟩ := h.attach ha
      obtain ⟨-, hself, hi⟩ := h.indirect_attached ha
      have hblk := blk_none hd h0
      have hblk' : t.blk ip bn = 0 := by
        rw [← hed.refs_blk, hedit.inum, ha.refs, h.refs_blk, hblk,
          if_neg fun e => slotOf_ne bn (congrArg Prod.snd e)]
      obtain ⟨hfull', hone'⟩ := htwo i t ha hblk
      have hentry := bmap_entry hed hd hbn (by rw [hself]; exact hi) (absurd hblk') hfull' hone'
      rwa [hself] at hentry

end Wp

/-- `bmap` finds the block or attaches a new one. -/
theorem bmap_spec (h : Editing s ip) (hbn : bn < MAXFILE) :
    wp (OutOfBlocks s (1 + needsIndirect s ip)) (bmap ip bn) (fun a s' => Mapped ip bn a s s') s := by
  refine bmap_wp h hbn (Mapped.found h) (fun hall => ⟨rfl, ?_⟩) (fun a s' => .attached h)
    fun i t ha hblk => ⟨fun hall => ⟨rfl, ?_⟩, fun a s' ha' => ?_⟩
  · rw [nfree_eq_zero hall]
    omega
  · have hnfree := h.attaches_nfree ha
    rw [nfree_eq_zero hall] at hnfree
    rw [needsIndirect, if_pos (h.indirect_attached ha).1]
    omega
  · exact .after_indirect h ha hblk (.attached (h.attach ha).1 ha')

end DuckoUnix.Fs
