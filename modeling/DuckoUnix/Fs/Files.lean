import DuckoUnix.Fs.Content

/-!
# Files as byte arrays

Between two operations on inodes the store is `Sound`: blocks have one owner, and the valid copies in
the inode cache have the size and the block numbers of the inodes on the disk. In a sound store,
reading and writing the contents of an inode without holes is reading and writing a byte array, and no
other file changes.
-/

namespace DuckoUnix.Fs

open Lib Function

variable {d d' : Disk} {di di' : Dinode} {i j k b bn off n o : ℕ} {s s' s'' : Store} {ip jp : Ip}
  {E : Halt → Prop} {src : List (BitVec 8)}

/-! ## Contents -/

/-- The file has a block for every byte below its size. -/
def NoHole (d : Disk) (di : Dinode) : Prop :=
  ∀ bn, bn * BSIZE < di.size.toNat → blockAt d di bn ≠ 0

def content (d : Disk) (di : Dinode) : List (BitVec 8) :=
  (List.range di.size.toNat).map (byteAt d di)

theorem length_content : (content d di).length = di.size.toNat := by
  unfold content
  rw [List.length_map, List.length_range]

theorem getElem_content (h : o < (content d di).length) : (content d di)[o] = byteAt d di o := by
  unfold content at h ⊢
  rw [List.getElem_map, List.getElem_range]

theorem NoHole.blk (h : NoHole d di) (ho : o < di.size.toNat) : blockAt d di (o / BSIZE) ≠ 0 :=
  h _ (Nat.lt_of_le_of_lt (Nat.div_mul_le_self o BSIZE) ho)

/-- The blocks of the file are the same, with the same contents. -/
structure SameFile (d d' : Disk) (di : Dinode) : Prop where
  blk : ∀ bn, blockAt d' di bn = blockAt d di bn
  data : ∀ bn, blockAt d di bn ≠ 0 → d' (blockAt d di bn) = d (blockAt d di bn)

theorem SameFile.noHole (h : SameFile d d' di) (hn : NoHole d di) : NoHole d' di := fun bn hbn => by
  rw [h.blk]
  exact hn bn hbn

theorem SameFile.content (h : SameFile d d' di) (hn : NoHole d di) :
    content d' di = content d di := by
  refine List.map_congr_left fun o ho => ?_
  unfold byteAt
  rw [h.blk, h.data _ (hn.blk (List.mem_range.mp ho))]

/-! ## Sound stores -/

structure Sound (s : Store) : Prop where
  layout : Layout s.sb s.fssize
  own : Owned s.sb (dinode s.sb s.disk) s.disk
  inum : ∀ ip, 0 < (s.icache ip).ref → (s.icache ip).inum < s.sb.nino
  unique : ∀ ip jp, 0 < (s.icache ip).ref → 0 < (s.icache jp).ref →
    (s.icache ip).inum = (s.icache jp).inum → ip = jp
  size : ∀ ip, 0 < (s.icache ip).ref → (s.icache ip).valid = true →
    (s.icache ip).din.size = (dinode s.sb s.disk (s.icache ip).inum).size
  addrs : ∀ ip, 0 < (s.icache ip).ref → (s.icache ip).valid = true →
    (s.icache ip).din.addrs = (dinode s.sb s.disk (s.icache ip).inum).addrs
  bare : ∀ ip, 0 < (s.icache ip).ref → (s.icache ip).valid = true →
    (dinode s.sb s.disk (s.icache ip).inum).type = T_FREE →
    (s.icache ip).din.size = 0 ∧ (s.icache ip).din.addrs = fun _ => 0

/-- The inode in place `ip` has been read from the disk and is allocated. -/
structure Live (s : Store) (ip : Ip) : Prop where
  ref : 0 < (s.icache ip).ref
  valid : (s.icache ip).valid = true
  type : (s.icache ip).din.type ≠ T_FREE
  disk : (dinode s.sb s.disk (s.icache ip).inum).type ≠ T_FREE

theorem blockAt_congr (haddr : di'.addrs = di.addrs) : blockAt d di' bn = blockAt d di bn :=
  refAt_congr haddr fun _ => rfl

theorem NoHole.congr (h : NoHole d di) (hsize : di'.size = di.size) (haddr : di'.addrs = di.addrs) :
    NoHole d di' := fun bn hbn => by
  rw [blockAt_congr haddr]
  exact h bn (by rwa [hsize] at hbn)

theorem content_congr (hsize : di'.size = di.size) (haddr : di'.addrs = di.addrs) :
    content d di' = content d di := by
  unfold content
  rw [hsize]
  refine List.map_congr_left fun o _ => ?_
  unfold byteAt
  rw [blockAt_congr haddr]

/-- The references seen on the disk are those seen with the inode in memory. -/
theorem refs_table_eq (haddr : (s.icache ip).din.addrs = (dinode s.sb s.disk (s.icache ip).inum).addrs)
    (ht : (s.icache ip).din.type ≠ T_FREE)
    (ht' : (dinode s.sb s.disk (s.icache ip).inum).type ≠ T_FREE) (x : ℕ × ℕ) :
    s.refs ip x = refs s.sb (dinode s.sb s.disk) s.disk x := by
  refine refs_congr (fun i _ => ?_) (fun i _ _ => ?_) (fun _ _ _ _ => rfl) x
  · by_cases e : i = (s.icache ip).inum
    · rw [e, table_self]
      exact iff_of_false ht ht'
    · rw [table_of_ne e]
  · by_cases e : i = (s.icache ip).inum
    · rw [e, table_self, haddr]
    · rw [table_of_ne e]

namespace Sound

variable (h : Sound s)
include h

theorem refs_eq (hl : Live s ip) (x : ℕ × ℕ) :
    s.refs ip x = refs s.sb (dinode s.sb s.disk) s.disk x :=
  refs_table_eq (h.addrs ip hl.ref hl.valid) hl.type hl.disk x

theorem editing (hl : Live s ip) (hop : 0 < s.outstanding) : Editing s ip where
  layout := h.layout
  own := ⟨h.own.exact.congr (h.refs_eq hl) fun _ _ => rfl, h.own.area⟩
  lt := h.inum ip hl.ref
  type := hl.type
  op := hop

theorem content_eq (hl : Live s ip) : content s.disk (dinode s.sb s.disk (s.icache ip).inum) =
    content s.disk (s.icache ip).din :=
  content_congr (h.size ip hl.ref hl.valid).symm (h.addrs ip hl.ref hl.valid).symm

theorem onDisk (hl : Live s ip) : OnDisk s ip := by
  have hed : Editing { s with outstanding := 1 } ip :=
    Sound.editing (s := { s with outstanding := 1 })
      ⟨h.layout, h.own, h.inum, h.unique, h.size, h.addrs, h.bare⟩
      ⟨hl.ref, hl.valid, hl.type, hl.disk⟩ Nat.one_pos
  exact ⟨hed.onDisk.indirect, hed.onDisk.blk⟩

end Sound

/-! ## Reading -/

theorem readFile_range (hd : OnDisk s ip) (off n : ℕ)
    (hblk : ∀ o, off ≤ o → o < off + n → o < (s.icache ip).din.size.toNat →
      s.blk ip (o / BSIZE) ≠ 0) : readFile ip off n s = .ok
      (if (s.icache ip).din.size.toNat < off ∨ (off + n) % UINT < off then none
        else some (((content s.disk (s.icache ip).din).drop off).take n), s) := by
  have hspec : wp (fun _ => False) (readFile ip off n) (fun r t => r =
      (if (s.icache ip).din.size.toNat < off ∨ (off + n) % UINT < off then none
        else some (((content s.disk (s.icache ip).din).drop off).take n)) ∧ t = s) s := by
    unfold readFile inode
    rw [wp_bind, wp_bind, wp_get, wp_pure]
    dsimp only
    by_cases hc : (s.icache ip).din.size.toNat < off ∨ (off + n) % UINT < off
    · rw [if_pos hc, if_pos hc]
      exact ⟨rfl, rfl⟩
    · rw [if_neg hc, if_neg hc, wp_bind]
      have hoff : off ≤ (s.icache ip).din.size.toNat := by omega
      refine wp_mono (readLoop_spec hd (Nat.le_refl _) fun o ho ho' => ?_) ?_
      · split_ifs at ho'
        · exact hblk o ho (by omega) (by omega)
        · exact hblk o ho ho' (by omega)
      · rintro bs t ⟨hbs, ht⟩
        refine ⟨?_, ht⟩
        rw [hbs]
        congr 1
        refine List.ext_getElem ?_ fun j h₁ h₂ => ?_
        · rw [List.length_map, List.length_range, List.length_take, List.length_drop, length_content]
          split_ifs
          all_goals omega
        · rw [List.getElem_map, List.getElem_range, List.getElem_take, List.getElem_drop,
            getElem_content]
          rfl
  obtain ⟨r, t, hx, hr, ht⟩ := wp_returns hspec
  rw [hx, hr, ht]

/-- `readi` of a file: the bytes from `off` on, at most `n`. -/
theorem readFile_spec (h : Sound s) (hl : Live s ip) (hn : NoHole s.disk (s.icache ip).din)
    (off n : ℕ) : readFile ip off n s = .ok
      (if (s.icache ip).din.size.toNat < off ∨ (off + n) % UINT < off then none
        else some (((content s.disk (s.icache ip).din).drop off).take n), s) :=
  readFile_range (h.onDisk hl) off n fun _ _ _ ho => hn.blk ho

/-! ## Writing -/

def patch (c : List (BitVec 8)) (off : ℕ) (src : List (BitVec 8)) : List (BitVec 8) :=
  c.take off ++ src ++ c.drop (off + src.length)

theorem length_patch {c : List (BitVec 8)} (src : List (BitVec 8)) (hoff : off ≤ c.length) :
    (patch c off src).length = max c.length (off + src.length) := by
  unfold patch
  rw [List.length_append, List.length_append, List.length_take, List.length_drop]
  omega

theorem getElem_patch {c : List (BitVec 8)} (hoff : off ≤ c.length)
    (ho : o < (patch c off src).length) : (patch c off src)[o] =
      if off ≤ o ∧ o < off + src.length then src.getD (o - off) 0 else c.getD o 0 := by
  have hlen := length_patch src hoff
  have htake : (c.take off).length = off := by
    rw [List.length_take]
    omega
  unfold patch at ho hlen ⊢
  by_cases h₁ : o < off
  · rw [if_neg fun h => by omega, List.getElem_append_left (by rw [List.length_append]; omega),
      List.getElem_append_left (by omega), List.getElem_take, List.getD_eq_getElem _ _ (by omega)]
  · by_cases h₂ : o < off + src.length
    · rw [if_pos ⟨by omega, h₂⟩, List.getElem_append_left (by rw [List.length_append]; omega),
        List.getElem_append_right (by omega), List.getD_eq_getElem _ _ (by omega)]
      congr 1
      omega
    · have hmax : o < c.length := by omega
      rw [if_neg fun h => h₂ h.2, List.getElem_append_right (by rw [List.length_append]; omega),
        List.getElem_drop, List.getD_eq_getElem _ _ hmax]
      congr 1
      rw [List.length_append]
      omega

/-- What `writei` of `src` at `off` has done to the store. -/
structure Wrote (ip : Ip) (off : ℕ) (src : List (BitVec 8)) (s s' : Store) : Prop extends
    Fixed s s' where
  sound : Sound s'
  others : ∀ jp, jp ≠ ip → s'.icache jp = s.icache jp
  entry : ∃ size addrs, s'.icache ip =
    { s.icache ip with din := { (s.icache ip).din with size := size, addrs := addrs } }
  attr : (dinode s.sb s'.disk (s.icache ip).inum).attr =
    if (s.icache ip).din.size.toNat < off + src.length ∧ src ≠ [] then (s.icache ip).din.attr
    else (dinode s.sb s.disk (s.icache ip).inum).attr
  noHole : NoHole s'.disk (s'.icache ip).din
  content : content s'.disk (s'.icache ip).din = patch (content s.disk (s.icache ip).din) off src
  inodes : ∀ j < s.sb.nino, j ≠ (s.icache ip).inum → dinode s.sb s'.disk j = dinode s.sb s.disk j
  files : ∀ j < s.sb.nino, j ≠ (s.icache ip).inum → (dinode s.sb s.disk j).type ≠ T_FREE →
    SameFile s.disk s'.disk (dinode s.sb s.disk j)
  room : nfree s.sb s.disk ≤ nfree s'.sb s'.disk + chunks off src.length + 1

/-! ### The inode is copied to the disk -/

/-- The state after `iupdate`. -/
def Store.update (s : Store) (ip : Ip) : Store :=
  s.write (IBLOCK (s.icache ip).inum s.sb) (putDinode (s.disk (IBLOCK (s.icache ip).inum s.sb))
    ((s.icache ip).inum % IPB) (s.icache ip).din)

theorem Store.update_disk :
    (s.update ip).disk = setDinode s.sb s.disk (s.icache ip).inum (s.icache ip).din := rfl

theorem iupdate_wp {Q : Unit → Store → Prop} (L : Layout s.sb s.fssize)
    (hi : (s.icache ip).inum < s.sb.nino) (hop : 0 < s.outstanding) (hQ : Q () (s.update ip)) :
    wp E (iupdate ip) Q s := by
  unfold iupdate inode
  rw [wp_bind, wp_bind, wp_get, wp_pure, wp_bind, wp_get]
  dsimp only
  rw [wp_bind]
  exact wp_bread (L.IBLOCK_lt_fssize hi) (wp_log_write hop hQ)

theorem dinode_update : dinode s.sb (s.update ip).disk j = table s ip j := by
  rw [Store.update_disk, dinode_setDinode]
  unfold table
  by_cases e : j = (s.icache ip).inum
  · rw [if_pos e, e, update_self]
  · rw [if_neg e, update_of_ne e]

theorem update_disk_of_ne (h : b ≠ IBLOCK (s.icache ip).inum s.sb) :
    (s.update ip).disk b = s.disk b := setDinode_of_ne h

theorem update_disk_ref (L : Layout s.sb s.fssize) (hown : Owned s.sb (table s ip) s.disk)
    (hi : (s.icache ip).inum < s.sb.nino) {x : ℕ × ℕ} (hx : s.refs ip x ≠ 0) :
    (s.update ip).disk (s.refs ip x) = s.disk (s.refs ip x) :=
  update_disk_of_ne (L.ne_IBLOCK (hown.data hx) hi)

theorem refs_update (L : Layout s.sb s.fssize) (hown : Owned s.sb (table s ip) s.disk)
    (hi : (s.icache ip).inum < s.sb.nino) (x : ℕ × ℕ) :
    refs s.sb (dinode s.sb (s.update ip).disk) (s.update ip).disk x = s.refs ip x := by
  refine refs_congr (fun j _ => by rw [dinode_update]) (fun j _ _ => by rw [dinode_update])
    (fun j hj ht h0 => ?_) x
  obtain ⟨he, -⟩ := hown.indirect hj ht h0
  rw [← he] at h0 ⊢
  exact update_disk_ref L hown hi h0

theorem inUse_update (hi : (s.icache ip).inum < s.sb.nino) :
    inUse s.sb (s.update ip).disk b = inUse s.sb s.disk b :=
  inUse_congr (update_disk_of_ne (IBLOCK_ne_BBLOCK hi).symm)

theorem own_update (L : Layout s.sb s.fssize) (hown : Owned s.sb (table s ip) s.disk)
    (hi : (s.icache ip).inum < s.sb.nino) :
    Owned s.sb (dinode s.sb (s.update ip).disk) (s.update ip).disk :=
  ⟨hown.exact.congr (refs_update L hown hi) fun _ _ => inUse_update hi, fun b hb => by
    rw [inUse_update hi, hown.area b hb]⟩

/-- Sound, but for the inode in place `ip`, which counts as it is in memory. -/
structure SoundBut (s : Store) (ip : Ip) : Prop where
  layout : Layout s.sb s.fssize
  own : Owned s.sb (table s ip) s.disk
  ref : 0 < (s.icache ip).ref
  inum : ∀ jp, 0 < (s.icache jp).ref → (s.icache jp).inum < s.sb.nino
  unique : ∀ jp jp', 0 < (s.icache jp).ref → 0 < (s.icache jp').ref →
    (s.icache jp).inum = (s.icache jp').inum → jp = jp'
  size : ∀ jp, jp ≠ ip → 0 < (s.icache jp).ref → (s.icache jp).valid = true →
    (s.icache jp).din.size = (dinode s.sb s.disk (s.icache jp).inum).size
  addrs : ∀ jp, jp ≠ ip → 0 < (s.icache jp).ref → (s.icache jp).valid = true →
    (s.icache jp).din.addrs = (dinode s.sb s.disk (s.icache jp).inum).addrs
  bare : ∀ jp, jp ≠ ip → 0 < (s.icache jp).ref → (s.icache jp).valid = true →
    (dinode s.sb s.disk (s.icache jp).inum).type = T_FREE →
    (s.icache jp).din.size = 0 ∧ (s.icache jp).din.addrs = fun _ => 0

/-- `iupdate` makes the store sound again. -/
theorem SoundBut.update (h : SoundBut s ip) (hbare : (s.icache ip).din.type = T_FREE →
    (s.icache ip).din.size = 0 ∧ (s.icache ip).din.addrs = fun _ => 0) (hs' : s' = s.update ip) :
    Sound s' := by
  have hi := h.inum ip h.ref
  have hsb : s'.sb = s.sb := by rw [hs']; rfl
  have hic : s'.icache = s.icache := by rw [hs']; rfl
  have hself : dinode s.sb s'.disk (s.icache ip).inum = (s.icache ip).din := by
    rw [hs', dinode_update, table_self]
  have hother : ∀ jp, jp ≠ ip → 0 < (s.icache jp).ref →
      dinode s.sb s'.disk (s.icache jp).inum = dinode s.sb s.disk (s.icache jp).inum := by
    intro jp hj href
    rw [hs', dinode_update, table_of_ne fun e => hj (h.unique jp ip href h.ref e)]
  refine ⟨?_, ?_, ?_, ?_, fun jp href hv => ?_, fun jp href hv => ?_, fun jp href hv ht => ?_⟩
  · rw [hs']
    exact h.layout
  · rw [hsb, hs']
    exact own_update h.layout h.own hi
  · rw [hsb, hic]
    exact h.inum
  · rw [hic]
    exact h.unique
  · rw [hic] at href hv ⊢
    rw [hsb]
    by_cases e : jp = ip
    · rw [e, hself]
    · rw [hother jp e href, h.size jp e href hv]
  · rw [hic] at href hv ⊢
    rw [hsb]
    by_cases e : jp = ip
    · rw [e, hself]
    · rw [hother jp e href, h.addrs jp e href hv]
  · rw [hic] at href hv ht ⊢
    rw [hsb] at ht
    by_cases e : jp = ip
    · rw [e, hself] at ht
      rw [e]
      exact hbare ht
    · rw [hother jp e href] at ht
      exact h.bare jp e href hv ht

/-! ### Other files -/

theorem Edit.dinode (he : Edit ip s s') (hj : j < s.sb.nino) :
    dinode s.sb s'.disk j = dinode s.sb s.disk j := dinode_congr (he.inodes j hj)

theorem Edit.sameFile (he : Edit ip s s') (hj : j < s.sb.nino) (hne : j ≠ (s.icache ip).inum)
    (ht : (Fs.dinode s.sb s.disk j).type ≠ T_FREE) :
    SameFile s.disk s'.disk (Fs.dinode s.sb s.disk j) := by
  have hrefs : ∀ k, s.refs ip (j, k) = refAt s.disk (Fs.dinode s.sb s.disk j) k := by
    intro k
    unfold Store.refs
    rw [refs_of hj (by rw [table_of_ne hne]; exact ht), table_of_ne hne]
  have hrefs' : ∀ k, s'.refs ip (j, k) = refAt s'.disk (Fs.dinode s.sb s.disk j) k := by
    intro k
    have hne' : j ≠ (s'.icache ip).inum := by rw [he.inum]; exact hne
    have htab : table s' ip j = Fs.dinode s.sb s.disk j := by
      rw [table_of_ne hne', he.sb, he.dinode hj]
    unfold Store.refs
    rw [he.sb, refs_of hj (by rw [htab]; exact ht), htab]
  refine ⟨fun bn => ?_, fun bn h0 => ?_⟩
  · unfold blockAt
    rw [← hrefs, ← hrefs', he.rest (j, slotOf bn) hne]
  · unfold blockAt at h0 ⊢
    rw [← hrefs] at h0 ⊢
    exact he.data (j, slotOf bn) hne h0

theorem SameFile.trans {d'' : Disk} (h : SameFile d d' di) (h' : SameFile d' d'' di) :
    SameFile d d'' di where
  blk bn := (h'.blk bn).trans (h.blk bn)
  data bn h0 := by
    have := h'.data bn (by rw [h.blk]; exact h0)
    rw [h.blk] at this
    rw [this, h.data bn h0]

theorem sameFile_update (L : Layout s.sb s.fssize) (hown : Owned s.sb (table s ip) s.disk)
    (hi : (s.icache ip).inum < s.sb.nino) (hj : j < s.sb.nino)
    (ht : (table s ip j).type ≠ T_FREE) : SameFile s.disk (s.update ip).disk (table s ip j) := by
  have hrefs : ∀ k, s.refs ip (j, k) = refAt s.disk (table s ip j) k := fun k => refs_of hj ht
  have hrefs' : ∀ k, refAt (s.update ip).disk (table s ip j) k = s.refs ip (j, k) := by
    intro k
    have hd : Fs.dinode s.sb (s.update ip).disk j = table s ip j := dinode_update
    rw [← refs_update L hown hi, refs_of hj (by rw [hd]; exact ht), hd]
  refine ⟨fun bn => ?_, fun bn h0 => ?_⟩
  · unfold blockAt
    rw [← hrefs, hrefs']
  · unfold blockAt at h0 ⊢
    rw [← hrefs] at h0 ⊢
    exact update_disk_ref L hown hi h0

/-! ### `writei` -/

theorem Written.content (W : Written ip off src s s') (hs : Editing s ip)
    (hn : NoHole s.disk (s.icache ip).din) (hoff : off ≤ (s.icache ip).din.size.toNat)
    (haddr : di.addrs = (s'.icache ip).din.addrs)
    (hsize : di.size.toNat = max (s.icache ip).din.size.toNat (off + src.length)) :
    NoHole s'.disk di ∧ content s'.disk di = patch (content s.disk (s.icache ip).din) off src := by
  have hblk : ∀ o < di.size.toNat, s'.blk ip (o / BSIZE) ≠ 0 := by
    intro o ho
    by_cases hlt : o < (s.icache ip).din.size.toNat
    · have hb : s.blk ip (o / BSIZE) ≠ 0 := hn.blk hlt
      rw [W.edit.blk hs W.editing hb]
      exact hb
    · exact (W.new o (by omega) (by omega)).1
  refine ⟨fun bn hbn => ?_, List.ext_getElem ?_ fun o h₁ h₂ => ?_⟩
  · rw [blockAt_congr haddr]
    have := hblk (bn * BSIZE) hbn
    rwa [Nat.mul_div_cancel bn BSIZE_pos] at this
  · rw [length_content, length_patch src (by rw [length_content]; exact hoff), length_content, hsize]
  · rw [length_content] at h₁
    rw [getElem_content, getElem_patch (by rw [length_content]; exact hoff)]
    have hbyte : byteAt s'.disk di o = s'.byte ip o := by
      unfold byteAt Store.byte byteAt
      rw [blockAt_congr haddr]
    rw [hbyte]
    by_cases ho : off ≤ o ∧ o < off + src.length
    · rw [if_pos ho, (W.new o ho.1 ho.2).2]
    · have hlt : o < (s.icache ip).din.size.toNat := by omega
      rw [if_neg ho, W.old o (by omega) (hn.blk hlt),
        List.getD_eq_getElem _ _ (by rw [length_content]; exact hlt), getElem_content]
      rfl

/-- The inode in place `ip` may change, if the blocks still have one owner each. -/
theorem Sound.but (h : Sound s) (hr : 0 < (s.icache ip).ref) (hf : Fixed s s')
    (hown : Owned s'.sb (table s' ip) s'.disk) (href : (s'.icache ip).ref = (s.icache ip).ref)
    (hinum : (s'.icache ip).inum = (s.icache ip).inum)
    (hother : ∀ jp, jp ≠ ip → s'.icache jp = s.icache jp)
    (hdin : ∀ j < s.sb.nino, j ≠ (s.icache ip).inum →
      dinode s.sb s'.disk j = dinode s.sb s.disk j) : SoundBut s' ip := by
  have hsame : ∀ jp, (s'.icache jp).ref = (s.icache jp).ref ∧
      (s'.icache jp).inum = (s.icache jp).inum := by
    intro jp
    by_cases e : jp = ip
    · rw [e]
      exact ⟨href, hinum⟩
    · rw [hother jp e]
      exact ⟨rfl, rfl⟩
  have hdin' : ∀ jp, jp ≠ ip → 0 < (s.icache jp).ref → dinode s'.sb s'.disk (s.icache jp).inum =
      dinode s.sb s.disk (s.icache jp).inum := by
    intro jp hne hj
    rw [hf.sb]
    exact hdin _ (h.inum jp hj) fun e => hne (h.unique jp ip hj hr e)
  refine ⟨hf.layout h.layout, hown, ?_, fun jp hj => ?_, fun jp jp' hj hj' e => ?_,
    fun jp hne hj hv => ?_, fun jp hne hj hv => ?_, fun jp hne hj hv ht => ?_⟩
  · rw [href]
    exact hr
  · rw [(hsame jp).1] at hj
    rw [(hsame jp).2, hf.sb]
    exact h.inum jp hj
  · rw [(hsame jp).1] at hj
    rw [(hsame jp').1] at hj'
    rw [(hsame jp).2, (hsame jp').2] at e
    exact h.unique jp jp' hj hj' e
  · rw [hother jp hne] at hj hv ⊢
    rw [hdin' jp hne hj]
    exact h.size jp hj hv
  · rw [hother jp hne] at hj hv ⊢
    rw [hdin' jp hne hj]
    exact h.addrs jp hj hv
  · rw [hother jp hne] at hj hv ht ⊢
    rw [hdin' jp hne hj] at ht
    exact h.bare jp hj hv ht

/-- The cache stays as it is, and what it has copies of does so on the disk. -/
theorem Sound.keep (h : Sound s) (hf : Fixed s s') (hic : s'.icache = s.icache)
    (hown : Owned s'.sb (dinode s'.sb s'.disk) s'.disk)
    (hdin : ∀ jp, 0 < (s.icache jp).ref → (s.icache jp).valid = true →
      dinode s'.sb s'.disk (s.icache jp).inum = dinode s.sb s.disk (s.icache jp).inum) :
    Sound s' := by
  refine ⟨hf.layout h.layout, hown, ?_, ?_, ?_, ?_, ?_⟩
  · rw [hic, hf.sb]
    exact h.inum
  · rw [hic]
    exact h.unique
  · intro jp hj hv
    rw [hic] at hj hv ⊢
    rw [hdin jp hj hv]
    exact h.size jp hj hv
  · intro jp hj hv
    rw [hic] at hj hv ⊢
    rw [hdin jp hj hv]
    exact h.addrs jp hj hv
  · intro jp hj hv ht
    rw [hic] at hj hv ht ⊢
    rw [hdin jp hj hv] at ht
    exact h.bare jp hj hv ht

/-- Place `ip` of the cache gets another inode. -/
theorem Sound.put {e : Inode} (h : Sound s) (hinum : 0 < e.ref → e.inum < s.sb.nino)
    (hunique : 0 < e.ref → ∀ jp, jp ≠ ip → 0 < (s.icache jp).ref → (s.icache jp).inum ≠ e.inum)
    (hcopy : 0 < e.ref → e.valid = true → e.din.size = (dinode s.sb s.disk e.inum).size ∧
      e.din.addrs = (dinode s.sb s.disk e.inum).addrs ∧
      ((dinode s.sb s.disk e.inum).type = T_FREE → e.din.size = 0 ∧ e.din.addrs = fun _ => 0)) :
    Sound (s.put ip e) := by
  refine ⟨h.layout, h.own, fun jp hr => ?_, fun jp jp' hr hr' hi => ?_, fun jp hr hv => ?_,
    fun jp hr hv => ?_, fun jp hr hv ht => ?_⟩
  · by_cases hj : jp = ip
    · rw [hj, put_self] at hr ⊢
      exact hinum hr
    · rw [put_of_ne hj] at hr ⊢
      exact h.inum jp hr
  · by_cases hj : jp = ip
    · by_cases hj' : jp' = ip
      · rw [hj, hj']
      · rw [hj, put_self] at hr hi
        rw [put_of_ne hj'] at hr' hi
        exact absurd hi.symm (hunique hr jp' hj' hr')
    · rw [put_of_ne hj] at hr hi
      by_cases hj' : jp' = ip
      · rw [hj', put_self] at hr' hi
        exact absurd hi (hunique hr' jp hj hr)
      · rw [put_of_ne hj'] at hr' hi
        exact h.unique jp jp' hr hr' hi
  · by_cases hj : jp = ip
    · rw [hj, put_self] at hr hv ⊢
      exact (hcopy hr hv).1
    · rw [put_of_ne hj] at hr hv ⊢
      exact h.size jp hr hv
  · by_cases hj : jp = ip
    · rw [hj, put_self] at hr hv ⊢
      exact (hcopy hr hv).2.1
    · rw [put_of_ne hj] at hr hv ⊢
      exact h.addrs jp hr hv
  · by_cases hj : jp = ip
    · rw [hj, put_self] at hr hv ht ⊢
      exact (hcopy hr hv).2.2 ht
    · rw [put_of_ne hj] at hr hv ht ⊢
      exact h.bare jp hr hv ht

theorem Sound.edit (h : Sound s) (hl : Live s ip) (he : Edit ip s s') (hed : Editing s' ip) :
    SoundBut s' ip := by
  obtain ⟨_, hentry⟩ := he.entry
  exact h.but hl.ref he.toFixed hed.own (by rw [hentry]) he.inum he.others fun j hj _ => he.dinode hj

/-- The copy in memory may get other fields than block numbers. -/
theorem Owned.setDin (h : Owned s.sb (table s ip) s.disk) (hsb : s'.sb = s.sb)
    (hdisk : s'.disk = s.disk) (hinum : (s'.icache ip).inum = (s.icache ip).inum)
    (htype : (s'.icache ip).din.type = T_FREE ↔ (s.icache ip).din.type = T_FREE)
    (haddr : (s'.icache ip).din.addrs = (s.icache ip).din.addrs) :
    Owned s'.sb (table s' ip) s'.disk := by
  unfold table
  rw [hsb, hdisk, hinum]
  refine ⟨h.exact.congr (refs_congr (fun j _ => ?_) (fun j _ _ => ?_) fun _ _ _ _ => rfl)
    fun _ _ => rfl, h.area⟩
  · by_cases e : j = (s.icache ip).inum
    · rw [e, update_self, table_self]
      exact htype
    · rw [update_of_ne e, table_of_ne e]
  · by_cases e : j = (s.icache ip).inum
    · rw [e, update_self, table_self, haddr]
    · rw [update_of_ne e, table_of_ne e]

theorem Written.icache_eq (W : Written ip off src s s')
    (hin : off + src.length ≤ (s.icache ip).din.size.toNat ∨ src = [])
    (hn : NoHole s.disk (s.icache ip).din) : s'.icache = s.icache := by
  refine W.same fun o h₁ h₂ => ?_
  rcases hin with hin | hin
  · exact hn.blk (by omega)
  · rw [hin, List.length_nil] at h₂
    omega

theorem Wrote.kept (h : Sound s) (hl : Live s ip) (hn : NoHole s.disk (s.icache ip).din)
    (hs : Editing s ip) (hoff : off ≤ (s.icache ip).din.size.toNat) (W : Written ip off src s s')
    (hin : off + src.length ≤ (s.icache ip).din.size.toNat ∨ src = [])
    (hfree : nfree s.sb s.disk ≤ nfree s'.sb s'.disk + chunks off src.length + 1) :
    Wrote ip off src s s' := by
  have hic := W.icache_eq hin hn
  have he := W.edit
  have hmax : (s.icache ip).din.size.toNat =
      max (s.icache ip).din.size.toNat (off + src.length) := by
    rcases hin with hin | hin
    · omega
    · rw [hin, List.length_nil]
      omega
  have haddr : (s.icache ip).din.addrs = (s'.icache ip).din.addrs := by rw [hic]
  obtain ⟨hn', hc⟩ := W.content hs hn hoff haddr hmax
  have hi := h.inum ip hl.ref
  have hdin : ∀ jp, 0 < (s.icache jp).ref → dinode s'.sb s'.disk (s.icache jp).inum =
      dinode s.sb s.disk (s.icache jp).inum := by
    intro jp hj
    rw [he.sb, he.dinode (h.inum jp hj)]
  have hrefs := refs_table_eq (s := s')
    (show (s'.icache ip).din.addrs = _ by rw [hic, hdin ip hl.ref]; exact h.addrs ip hl.ref hl.valid)
    (by rw [hic]; exact hl.type) (by rw [hic, hdin ip hl.ref]; exact hl.disk)
  have hown := W.editing.own.exact.congr (fun x => (hrefs x).symm) fun _ _ => rfl
  refine ⟨he.toFixed, h.keep he.toFixed hic ⟨hown, W.editing.own.area⟩ fun jp hj _ => hdin jp hj,
    he.others,
    ⟨(s.icache ip).din.size, (s.icache ip).din.addrs, by rw [hic]⟩, ?_, by rw [hic]; exact hn',
    by rw [hic]; exact hc, fun j hj _ => he.dinode hj, fun j hj hne ht => he.sameFile hj hne ht,
    hfree⟩
  rw [he.dinode hi, if_neg]
  rintro ⟨hlt, hnil⟩
  rcases hin with hin | hin
  · omega
  · exact hnil hin

theorem Wrote.grown (h : Sound s) (hl : Live s ip) (hn : NoHole s.disk (s.icache ip).din)
    (hs : Editing s ip) (hoff : off ≤ (s.icache ip).din.size.toNat) (W : Written ip off src s s')
    (hgrow : (s.icache ip).din.size.toNat < off + src.length) (hsrc : src ≠ [])
    (hmax : off + src.length ≤ MAXFILE * BSIZE)
    (hfree : nfree s.sb s.disk ≤ nfree s'.sb s'.disk + chunks off src.length + 1)
    {t u : Store} (ht : t = { s' with icache := update s'.icache ip { s'.icache ip with
      din := { (s'.icache ip).din with size := BitVec.ofNat 32 (off + src.length) } } })
    (hu : u = t.update ip) : Wrote ip off src s u := by
  have he := W.edit
  obtain ⟨addrs, hentry⟩ := he.entry
  have hself : t.icache ip = { s.icache ip with
      din := { (s.icache ip).din with
        size := BitVec.ofNat 32 (off + src.length), addrs := addrs } } := by
    rw [ht]
    show update s'.icache ip _ ip = _
    rw [update_self, hentry]
  have hother : ∀ jp, jp ≠ ip → t.icache jp = s'.icache jp := by
    intro jp hj
    rw [ht]
    exact update_of_ne hj _ _
  have hdisk : t.disk = s'.disk := by rw [ht]
  have hsb : t.sb = s.sb := by rw [ht]; exact he.sb
  have hinum : (t.icache ip).inum = (s.icache ip).inum := by rw [hself]
  have haddr : (t.icache ip).din.addrs = (s'.icache ip).din.addrs := by rw [hself, hentry]
  have hbut : SoundBut t ip := by
    refine h.but hl.ref (he.toFixed.trans (by rw [ht]; exact ⟨rfl, rfl, rfl, rfl, rfl⟩)) ?_
      (by rw [hself]) hinum (fun jp hj => (hother jp hj).trans (he.others jp hj)) fun j hj _ => ?_
    · exact W.editing.own.setDin (by rw [ht]) hdisk (hinum.trans he.inum.symm)
        (by rw [hself, hentry]) haddr
    · rw [hdisk]
      exact he.dinode hj
  have hsize : (BitVec.ofNat 32 (off + src.length)).toNat = off + src.length := by
    rw [BitVec.toNat_ofNat]
    refine Nat.mod_eq_of_lt ?_
    have : MAXFILE * BSIZE < 2 ^ 32 := by decide
    omega
  obtain ⟨hn', hc⟩ := W.content hs hn hoff haddr (by rw [hself, hsize]; omega)
  have hi : (t.icache ip).inum < t.sb.nino := hbut.inum ip hbut.ref
  have htype : (table t ip (t.icache ip).inum).type ≠ T_FREE := by
    rw [table_self, hself]
    exact hl.type
  have hfile : SameFile s'.disk u.disk (t.icache ip).din := by
    have := sameFile_update hbut.layout hbut.own hi hi htype
    rwa [table_self, ← hu, hdisk] at this
  have hicu : u.icache = t.icache := by rw [hu]; rfl
  have hdino : ∀ j, dinode s.sb u.disk j = table t ip j := by
    intro j
    rw [hu, ← hsb]
    exact dinode_update
  have hdino' : ∀ j < s.sb.nino, j ≠ (s.icache ip).inum →
      dinode s.sb u.disk j = dinode s.sb s.disk j := by
    intro j hj hne
    rw [hdino, table_of_ne (by rw [hinum]; exact hne), hsb, hdisk, he.dinode hj]
  refine ⟨he.toFixed.trans (by rw [hu, ht]; exact ⟨rfl, rfl, rfl, rfl, rfl⟩),
    hbut.update (fun hf => absurd hf (by rw [hself]; exact hl.type)) hu, fun jp hj => ?_,
    ⟨_, _, by rw [hicu, hself]⟩, ?_, ?_, ?_, hdino', fun j hj hne htj => ?_, ?_⟩
  · rw [hicu, hother jp hj, he.others jp hj]
  · rw [if_pos ⟨hgrow, hsrc⟩, hdino, ← hinum, table_self, hself]
    rfl
  · rw [hicu]
    exact hfile.noHole hn'
  · rw [hicu, hfile.content hn', hc]
  · have hne' : j ≠ (t.icache ip).inum := by rw [hinum]; exact hne
    have htab : table t ip j = dinode s.sb s.disk j := by
      rw [table_of_ne hne', hsb, hdisk, he.dinode hj]
    have hupd := sameFile_update hbut.layout hbut.own hi (j := j) (by rw [hsb]; exact hj)
      (by rw [htab]; exact htj)
    rw [htab, ← hu, hdisk] at hupd
    exact (he.sameFile hj hne htj).trans hupd
  · have hfu : nfree u.sb u.disk = nfree s'.sb s'.disk := by
      have husb : u.sb = t.sb := by rw [hu]; rfl
      have hs'sb : s'.sb = t.sb := by rw [ht]
      rw [husb, hs'sb, ← hdisk]
      refine nfree_congr fun c _ => ?_
      rw [hu]
      exact inUse_update hi
    rw [hfu]
    exact hfree

/-- `writei` refuses a range that begins behind the end of the file or ends too far. -/
theorem writeFile_far (h : (s.icache ip).din.size.toNat < off ∨ (off + src.length) % UINT < off ∨
    MAXFILE * BSIZE < off + src.length) : writeFile ip src off s = .ok (none, s) := by
  show (if _ then _ else if _ then _ else _ : K (Option ℕ)) s = _
  by_cases hc : (s.icache ip).din.size.toNat < off ∨ (off + src.length) % UINT < off
  · rw [if_pos hc]
    rfl
  · rw [if_neg hc, if_pos (by tauto)]
    rfl

/-- `writei` of a file: it stores the bytes, or returns -1 and does nothing. -/
theorem writeFile_spec (h : Sound s) (hl : Live s ip) (hn : NoHole s.disk (s.icache ip).din)
    (hop : 0 < s.outstanding) (off : ℕ) (src : List (BitVec 8)) :
    wp (OutOfBlocks s (chunks off src.length + 1)) (writeFile ip src off) (fun r s' =>
      if (s.icache ip).din.size.toNat < off ∨ (off + src.length) % UINT < off ∨
          MAXFILE * BSIZE < off + src.length then r = none ∧ s' = s
      else r = some src.length ∧ Wrote ip off src s s') s := by
  unfold writeFile inode
  rw [wp_bind, wp_bind, wp_get, wp_pure]
  dsimp only
  by_cases hc : (s.icache ip).din.size.toNat < off ∨ (off + src.length) % UINT < off
  · rw [if_pos hc, wp_pure, if_pos (by tauto)]
    exact ⟨rfl, rfl⟩
  rw [if_neg hc]
  by_cases hmax : MAXFILE * BSIZE < off + src.length
  · rw [if_pos hmax, wp_pure, if_pos (by tauto)]
    exact ⟨rfl, rfl⟩
  have hcond : ¬ ((s.icache ip).din.size.toNat < off ∨ (off + src.length) % UINT < off ∨
      MAXFILE * BSIZE < off + src.length) := by tauto
  rw [if_neg hmax, wp_bind]
  have hs := h.editing hl hop
  have hneed : needsIndirect s ip ≤ 1 := by
    unfold needsIndirect
    split_ifs
    all_goals omega
  refine wp_weaken (wp_mono (writeLoop_spec hs (Nat.le_refl _) (by omega)) ?_)
    fun e he => ⟨he.1, by have := he.2; omega⟩
  rintro off' s' ⟨rfl, W, hfree⟩
  have hoff : off ≤ (s.icache ip).din.size.toNat := by omega
  have hsize : (s'.icache ip).din.size = (s.icache ip).din.size := by
    obtain ⟨_, he⟩ := W.edit.entry
    rw [he]
  have hroom : nfree s.sb s.disk ≤ nfree s'.sb s'.disk + chunks off src.length + 1 := by omega
  rw [wp_bind, wp_bind, wp_get, wp_pure, hsize]
  by_cases hgrow : 0 < src.length ∧ (s.icache ip).din.size.toNat < off + src.length
  · have hsrc : src ≠ [] := List.length_pos_iff.mp hgrow.1
    rw [if_pos hgrow, wp_bind]
    unfold setDin setInode
    rw [wp_modify, wp_bind]
    refine iupdate_wp W.editing.layout ?_ W.editing.op ?_
    · show (update s'.icache ip _ ip).inum < s'.sb.nino
      rw [update_self]
      exact W.editing.lt
    · rw [wp_pure, if_neg hcond]
      exact ⟨rfl, Wrote.grown h hl hn hs hoff W hgrow.2 hsrc (by omega) hroom rfl rfl⟩
  · rw [if_neg hgrow, wp_pure, if_neg hcond]
    refine ⟨rfl, Wrote.kept h hl hn hs hoff W ?_ hroom⟩
    by_cases hnil : src = []
    · exact Or.inr hnil
    · have := List.length_pos_iff.mpr hnil
      exact Or.inl (by omega)

end DuckoUnix.Fs
