import DuckoUnix.Fs.Inodes
import DuckoUnix.Mkfs.Append

/-!
# The files of the image

Between two calls of `iappend` the inodes on the image say which blocks are whose, and a file has a
block for every byte of its contents and none past them (`Holds`). `iappend` appends to one file and
leaves the others alone.
-/

namespace DuckoUnix.Mkfs

open Lib Fs Function

variable {E : Exit → Prop} {s s' : Image} {t t' : Store} {d d' : Disk} {di din din' : Dinode}
  {ip : Ip} {inum off j : ℕ} {c p : List (BitVec 8)}

/-- The file `di` has the contents `c`, and no blocks past them. -/
structure Holds (d : Disk) (di : Dinode) (c : List (BitVec 8)) : Prop where
  content : content d di = c
  noHole : NoHole d di
  beyond : ∀ bn, di.size.toNat ≤ bn * BSIZE → blockAt d di bn = 0

theorem Holds.size (h : Holds d di c) : di.size.toNat = c.length := by
  rw [← h.content, length_content]

theorem Holds.same (h : Holds d di c) (hsame : SameFile d d' di) : Holds d' di c where
  content := (hsame.content h.noHole).trans h.content
  noHole := hsame.noHole h.noHole
  beyond bn hbn := (hsame.blk bn).trans (h.beyond bn hbn)

structure Rest (s : Image) : Prop where
  fresh : Fresh s
  own : Owned .mkfs (dinode .mkfs s.marked) s.marked

/-! ## Inodes -/

theorem wp_rinode {Q : Dinode → Image → Prop} (hf : Fresh s) (hi : inum < Superblock.mkfs.nino)
    (hQ : Q (dinode .mkfs s.marked inum) s) : wp E (rinode inum) Q s := by
  have hlt := layout_mkfs.IBLOCK_lt_fssize hi
  rw [dinode_marked hi] at hQ
  unfold rinode
  rw [wp_bind]
  exact wp_rsect hf.nsect (Nat.le_of_lt hlt) (fun _ => hQ) fun e => absurd e (Nat.ne_of_lt hlt)

/-- The state after `winode`. -/
def Image.setInode (s : Image) (inum : ℕ) (di : Dinode) : Image :=
  { s with
    img := setDinode .mkfs s.img inum di
    winodes := s.winodes ++ [IBLOCK inum .mkfs] }

theorem wp_winode {Q : Unit → Image → Prop} (hf : Fresh s) (hi : inum < Superblock.mkfs.nino)
    (hQ : Q () (s.setInode inum di)) : wp E (winode inum di) Q s := by
  have hlt := layout_mkfs.IBLOCK_lt_fssize hi
  unfold winode
  dsimp only
  rw [wp_bind]
  refine wp_rsect hf.nsect (Nat.le_of_lt hlt) (fun _ => ?_) fun e => absurd e (Nat.ne_of_lt hlt)
  rw [wp_bind]
  exact wp_wsect hf.nsect hlt hQ

theorem setInode_marked (hi : inum < Superblock.mkfs.nino) :
    (s.setInode inum di).marked = setDinode .mkfs s.marked inum di := by
  have hne := IBLOCK_ne_bmapstart hi
  have hblk : s.marked (IBLOCK inum .mkfs) = s.img (IBLOCK inum .mkfs) := marked_of_ne hne
  unfold setDinode
  rw [hblk]
  exact (update_comm hne _ _ _)

theorem Fresh.setInode (hf : Fresh s) (hi : inum < Superblock.mkfs.nino) :
    Fresh (s.setInode inum di) where
  nsect := hf.nsect
  low := hf.low
  high := hf.high
  zero b hb hb' := by
    have hlt := IBLOCK_lt hi
    have hlow := hf.low
    have hne : b ≠ IBLOCK inum .mkfs := by
      have : Superblock.mkfs.bmapstart < nmeta := by decide
      have : s.freeblock ≤ b := hb
      omega
    exact (setDinode_of_ne hne).trans (hf.zero b hb hb')
  winodes b hb := by
    rcases List.mem_append.mp hb with hb | hb
    · exact hf.winodes b hb
    · rw [List.mem_singleton.mp hb]
      exact ⟨Nat.le_add_left _ _, IBLOCK_lt hi⟩
  assigned := hf.assigned

theorem keeps_setInode : Keeps s (s.setInode inum di) := by
  have hne : 1 ≠ IBLOCK inum .mkfs := by
    show 1 ≠ inum / 8 + 32
    omega
  have himg : setDinode .mkfs s.img inum di 1 = s.img 1 := setDinode_of_ne hne
  exact ⟨rfl, rfl, himg⟩

/-! ## Appending -/

def viewed (ip : Ip) (s : Image) (inum : ℕ) : Store :=
  { Store.boot .mkfs FSSIZE s.marked with
    icache := update (Store.boot .mkfs FSSIZE s.marked).icache ip
      ⟨inum, 1, true, true, dinode .mkfs s.marked inum⟩
    outstanding := 1 }

theorem viewed_icache : (viewed ip s inum).icache ip =
    ⟨inum, 1, true, true, dinode .mkfs s.marked inum⟩ := update_self _ _ _

theorem viewed_table : table (viewed ip s inum) ip = dinode .mkfs s.marked := by
  unfold table
  rw [viewed_icache]
  exact update_eq_self _ _

theorem Rest.views (h : Rest s) (hi : inum < Superblock.mkfs.nino)
    (ht : (dinode .mkfs s.marked inum).type ≠ T_FREE) :
    Views ip (viewed ip s inum) s inum (dinode .mkfs s.marked inum) where
  fresh := h.fresh
  sb := rfl
  disk := rfl
  inum := by rw [viewed_icache]
  din := by rw [viewed_icache]
  editing := by
    refine ⟨layout_mkfs, ?_, ?_, ?_, Nat.one_pos⟩
    · rw [viewed_table]
      exact h.own
    · rw [viewed_icache]
      exact hi
    · rw [viewed_icache]
      exact ht

def resized (ip : Ip) (t : Store) (n : ℕ) : Store :=
  t.put ip { t.icache ip with din := { (t.icache ip).din with size := BitVec.ofNat 32 n } }

theorem resized_din {n : ℕ} : ((resized ip t n).icache ip).din =
    { (t.icache ip).din with size := BitVec.ofNat 32 n } := by
  unfold resized
  rw [put_self]

theorem resized_inum {n : ℕ} : ((resized ip t n).icache ip).inum = (t.icache ip).inum := by
  unfold resized
  rw [put_self]

theorem resized_table_of_ne {n : ℕ} (h : j ≠ (t.icache ip).inum) :
    table (resized ip t n) ip j = dinode t.sb t.disk j := by
  rw [table_of_ne (by rw [resized_inum]; exact h)]
  rfl

theorem resized_own {n : ℕ} (h : Editing t ip) :
    Owned t.sb (table (resized ip t n) ip) t.disk := by
  have hT : ∀ i, (table (resized ip t n) ip i).type = (table t ip i).type ∧
      (table (resized ip t n) ip i).addrs = (table t ip i).addrs := by
    intro i
    by_cases e : i = (t.icache ip).inum
    · have hself : table (resized ip t n) ip i = ((resized ip t n).icache ip).din := by
        rw [e, ← resized_inum (n := n), table_self]
      rw [hself, resized_din, e, table_self]
      exact ⟨rfl, rfl⟩
    · rw [resized_table_of_ne e, table_of_ne e]
      exact ⟨rfl, rfl⟩
  refine ⟨h.own.exact.congr (refs_congr (fun i _ => ?_) (fun i _ _ => (hT i).2) fun _ _ _ _ => rfl)
    fun _ _ => rfl, h.own.area⟩
  rw [(hT i).1]

/-- What `iappend` of `p` to inode `inum` does. -/
structure Appends (inum : ℕ) (p : List (BitVec 8)) (s s' : Image) : Prop where
  rest : Rest s'
  keeps : Keeps s s'
  attr : (dinode .mkfs s'.marked inum).attr = (dinode .mkfs s.marked inum).attr
  holds : ∀ c, Holds s.marked (dinode .mkfs s.marked inum) c →
    Holds s'.marked (dinode .mkfs s'.marked inum) (c ++ p)
  inodes : ∀ j < Superblock.mkfs.nino, j ≠ inum →
    dinode .mkfs s'.marked j = dinode .mkfs s.marked j
  files : ∀ j < Superblock.mkfs.nino, j ≠ inum → (dinode .mkfs s.marked j).type ≠ T_FREE →
    SameFile s.marked s'.marked (dinode .mkfs s.marked j)
  count : s'.freeblock ≤
    s.freeblock + 2 * chunks (dinode .mkfs s.marked inum).size.toNat p.length

/-- The bytes of the file, as long as it is being written to. -/
theorem Appended.holds (h : Appended ip off p t s inum din s' t')
    (ht : Editing t ip) (hoff : off = c.length) (hc : Holds t.disk (t.icache ip).din c) :
    Holds t'.disk { (t'.icache ip).din with size := BitVec.ofNat 32 (off + p.length) } (c ++ p) := by
  have hsize : (t.icache ip).din.size.toNat = off := hc.size.trans hoff.symm
  have hold : ∀ o, o < off → t.blk ip (o / BSIZE) ≠ 0 := fun o ho =>
    hc.noHole.blk (by rw [hsize]; exact ho)
  have hblk : ∀ o, o < off + p.length → t'.blk ip (o / BSIZE) ≠ 0 := by
    intro o ho
    by_cases hlt : o < off
    · rw [h.written.edit.blk ht h.written.editing (hold o hlt)]
      exact hold o hlt
    · exact (h.written.new o (Nat.le_of_not_lt hlt) ho).1
  -- the file is not larger than the largest file
  have hmax : off + p.length < 2 ^ 32 := by
    by_contra hle
    have hlast := hblk (MAXFILE * BSIZE) (Nat.lt_of_lt_of_le (by decide) (Nat.le_of_not_lt hle))
    exact absurd (h.written.editing.onDisk.blk _ hlast).2 (by decide)
  have hnat : (BitVec.ofNat 32 (off + p.length)).toNat = off + p.length := by
    rw [BitVec.toNat_ofNat, Nat.mod_eq_of_lt hmax]
  have hsame : ∀ bn, blockAt t'.disk { (t'.icache ip).din with
      size := BitVec.ofNat 32 (off + p.length) } bn = t'.blk ip bn := fun bn => blockAt_congr rfl
  refine ⟨?_, fun bn hbn => ?_, fun bn hbn => ?_⟩
  · refine List.ext_getElem ?_ fun o ho ho' => ?_
    · rw [length_content, List.length_append, hnat, hoff]
    · rw [length_content, hnat] at ho
      rw [getElem_content]
      have hbyte : byteAt t'.disk { (t'.icache ip).din with
          size := BitVec.ofNat 32 (off + p.length) } o = t'.byte ip o := by
        unfold byteAt
        rw [hsame]
        rfl
      rw [hbyte]
      by_cases hlt : o < off
      · rw [h.written.old o (Or.inl hlt) (hold o hlt), List.getElem_append_left (by omega)]
        have hget : (c)[o]? = some (t.byte ip o) := by
          rw [← hc.content]
          unfold content
          rw [List.getElem?_map, List.getElem?_range (by omega)]
          rfl
        rw [List.getElem?_eq_getElem (by omega)] at hget
        exact (Option.some.inj hget).symm
      · have hle := Nat.le_of_not_lt hlt
        rw [(h.written.new o hle ho).2, List.getElem_append_right (by omega),
          List.getD_eq_getElem _ _ (by omega)]
        congr 1
        omega
  · rw [hsame]
    have hbn : bn * BSIZE < off + p.length := by rwa [hnat] at hbn
    have := hblk (bn * BSIZE) hbn
    rwa [Nat.mul_div_cancel _ BSIZE_pos] at this
  · rw [hsame]
    refine h.beyond (fun b hb => ?_) bn (by rwa [hnat] at hbn)
    exact hc.beyond b (by rw [hsize]; exact hb)

theorem Appended.appends (h : Rest s) (hi : inum < Superblock.mkfs.nino)
    (ht : (dinode .mkfs s.marked inum).type ≠ T_FREE)
    (hoff : off = (dinode .mkfs s.marked inum).size.toNat)
    (ha : Appended ip off p (viewed ip s inum) s inum din' s' t') :
    Appends inum p s
      (s'.setInode inum { din' with size := BitVec.ofNat 32 (off + p.length) }) := by
  have hv : Views ip (viewed ip s inum) s inum _ := h.views hi ht
  have hedit := ha.written.edit
  obtain ⟨u, hu⟩ : ∃ u, u = resized ip t' (off + p.length) := ⟨_, rfl⟩
  have hsb : u.sb = .mkfs := by
    rw [hu]
    exact ha.views.sb
  have hinum : (u.icache ip).inum = inum := by
    rw [hu, resized_inum, ha.views.inum]
  have hdin : (u.icache ip).din = { din' with size := BitVec.ofNat 32 (off + p.length) } := by
    rw [hu, resized_din, ha.views.din]
  have hdisk : (s'.setInode inum { din' with size := BitVec.ofNat 32 (off + p.length) }).marked =
      (u.update ip).disk := by
    rw [setInode_marked hi, Store.update_disk, hinum, hdin, hsb, ← ha.views.disk, hu]
    rfl
  have hlay : Layout u.sb u.fssize := by
    rw [hu]
    exact ha.views.editing.layout
  have hown : Owned u.sb (table u ip) u.disk := by
    rw [hu]
    exact resized_own ha.views.editing
  have hiu : (u.icache ip).inum < u.sb.nino := by
    rw [hinum, hsb]
    exact hi
  have hT : ∀ j, dinode .mkfs (u.update ip).disk j = table u ip j := by
    intro j
    rw [← hsb, dinode_update]
  have hself : table u ip inum = { din' with size := BitVec.ofNat 32 (off + p.length) } := by
    rw [← hinum, table_self, hdin]
  have hother : ∀ j < Superblock.mkfs.nino, j ≠ inum →
      table u ip j = dinode .mkfs s.marked j := by
    intro j hj hne
    rw [hu, resized_table_of_ne (by rw [ha.views.inum]; exact hne), ha.views.sb]
    exact hedit.dinode hj
  obtain ⟨addrs, hentry⟩ := hedit.entry
  rw [viewed_icache] at hentry
  have hd' : din' = { dinode .mkfs s.marked inum with addrs := addrs } := by
    rw [← ha.views.din, hentry]
  have hsame : ∀ j < Superblock.mkfs.nino, (table u ip j).type ≠ T_FREE →
      SameFile t'.disk (u.update ip).disk (table u ip j) := by
    intro j hj htj
    have hs := sameFile_update hlay hown hiu (by rw [hsb]; exact hj) htj
    have hud : u.disk = t'.disk := by
      rw [hu]
      rfl
    rwa [hud] at hs
  refine ⟨⟨ha.views.fresh.setInode hi, ?_⟩, ha.keeps.trans keeps_setInode, ?_, fun c hc => ?_,
    fun j hj hne => ?_, fun j hj hne htj => ?_, ?_⟩
  · rw [hdisk, ← hsb]
    exact own_update hlay hown hiu
  · rw [hdisk, hT, hself, hd']
    rfl
  · rw [hdisk, hT]
    have hc' := ha.holds hv.editing (hoff.trans hc.size) (by rw [viewed_icache]; exact hc)
    rw [ha.views.din, ← hself] at hc'
    refine hc'.same (hsame inum hi ?_)
    rw [hself, hd']
    exact ht
  · rw [hdisk, hT, hother j hj hne]
  · have hfirst := hedit.sameFile (j := j) hj (by rw [viewed_icache]; exact hne) htj
    have hsecond := hsame j hj (by rw [hother j hj hne]; exact htj)
    rw [hother j hj hne] at hsecond
    rw [hdisk]
    exact hfirst.trans hsecond
  · rw [← hoff]
    exact ha.count

theorem iappend_wp (h : Rest s) (hi : inum < Superblock.mkfs.nino)
    (ht : (dinode .mkfs s.marked inum).type ≠ T_FREE)
    (hmax : (dinode .mkfs s.marked inum).size.toNat + p.length ≤ MAXFILE * BSIZE ∨ E .abort)
    (hroom : s.freeblock + 2 * chunks (dinode .mkfs s.marked inum).size.toNat p.length ≤ FSSIZE ∨
      E .failed) : wp E (iappend inum p) (fun _ s' => Appends inum p s s') s := by
  have hv : Views ⟨0, by decide⟩ (viewed ⟨0, by decide⟩ s inum) s inum _ := h.views hi ht
  unfold iappend
  rw [wp_bind]
  refine wp_rinode h.fresh hi ?_
  rw [wp_bind]
  refine wp_mono (appendLoop_wp hv (Nat.le_refl _) hmax hroom) ?_
  rintro ⟨din', off'⟩ s' ⟨hoff, t', ha⟩
  dsimp only at hoff ha ⊢
  rw [hoff]
  exact wp_winode ha.views.fresh hi (ha.appends h hi ht rfl)

end DuckoUnix.Mkfs
