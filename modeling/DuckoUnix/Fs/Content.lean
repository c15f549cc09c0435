import Mathlib.Data.List.GetD
import DuckoUnix.Fs.Bmap

/-!
# Reading and writing the contents of a file

The bytes of a file lie in its blocks. The loop of `readi` returns the bytes of a range whose blocks
the file has, and changes nothing. The loop of `writei` stores bytes at an offset: `Written` says what
that does to the bytes of the file, and `Edit` that nothing else changes.
-/

namespace DuckoUnix.Fs

open Lib Function

variable {d : Disk} {di : Dinode} {i k a b bn off n o : ℕ} {s s' s'' : Store} {ip : Ip}
  {E : Halt → Prop} {src src' : List (BitVec 8)}

/-- Byte `o` of a file. -/
def byteAt (d : Disk) (di : Dinode) (o : ℕ) : BitVec 8 := d (blockAt d di (o / BSIZE)) (o % BSIZE)

def Store.byte (s : Store) (ip : Ip) (o : ℕ) : BitVec 8 := byteAt s.disk (s.icache ip).din o

theorem BSIZE_pos : 0 < BSIZE := by decide

theorem div_add_of_lt {j : ℕ} (h : off % BSIZE + j < BSIZE) : (off + j) / BSIZE = off / BSIZE := by
  unfold BSIZE at *
  omega

theorem mod_add_of_lt {j : ℕ} (h : off % BSIZE + j < BSIZE) :
    (off + j) % BSIZE = off % BSIZE + j := by
  unfold BSIZE at *
  omega

/-! ## Reading -/

/-- The blocks of the file lie on the disk. -/
structure OnDisk (s : Store) (ip : Ip) : Prop where
  indirect : ((s.icache ip).din.addr NDIRECT).toNat ≠ 0 →
    ((s.icache ip).din.addr NDIRECT).toNat < s.fssize
  blk : ∀ bn, s.blk ip bn ≠ 0 → s.blk ip bn < s.fssize ∧ bn < MAXFILE

theorem bmapRead_found {Q : ℕ → Store → Prop} (hd : OnDisk s ip) (hblk : s.blk ip bn ≠ 0)
    (hQ : Q (s.blk ip bn) s) : wp E (bmapRead ip bn) Q s := by
  unfold bmapRead
  rw [wp_bind, wp_get, wp_bind]
  refine bmap_found (hd.blk bn hblk).2 hd.indirect hblk ?_
  rw [wp_bind, wp_modify, Nat.sub_self, Nat.add_zero]
  exact hQ

theorem readLoop_spec (hd : OnDisk s ip) (hn : n ≤ k)
    (hblk : ∀ o, off ≤ o → o < off + n → s.blk ip (o / BSIZE) ≠ 0) :
    wp E (readLoop ip k off n)
      (fun bs t => bs = (List.range n).map (fun j => s.byte ip (off + j)) ∧ t = s) s := by
  induction k generalizing off n with
  | zero =>
    have hn : n = 0 := Nat.le_zero.mp hn
    subst hn
    exact ⟨rfl, rfl⟩
  | succ k ih =>
    unfold readLoop
    dsimp only
    by_cases h0 : n = 0
    · subst h0
      rw [if_pos rfl]
      exact ⟨rfl, rfl⟩
    · have hpos := Nat.pos_of_ne_zero h0
      have hfirst := hblk off (Nat.le_refl _) (by omega)
      have hm : off % BSIZE + min n (BSIZE - off % BSIZE) ≤ BSIZE := by
        have := Nat.mod_lt off BSIZE_pos
        omega
      have hm0 : 0 < min n (BSIZE - off % BSIZE) := by
        have := Nat.mod_lt off BSIZE_pos
        omega
      rw [if_neg h0, wp_bind]
      refine bmapRead_found hd hfirst ?_
      rw [wp_bind]
      refine wp_bread (hd.blk _ hfirst).1 ?_
      rw [wp_bind]
      refine wp_mono (ih (by omega) fun o ho ho' => hblk o (by omega) (by omega)) ?_
      rintro bs t ⟨hbs, ht⟩
      refine ⟨?_, ht⟩
      rw [hbs]
      unfold slice
      -- the range is the chunk in the first block, followed by the rest
      conv_rhs => rw [show n = min n (BSIZE - off % BSIZE) + (n - min n (BSIZE - off % BSIZE)) by omega,
        List.range_add, List.map_append, List.map_map]
      congr 1
      · refine List.map_congr_left fun j hj => ?_
        have hj := List.mem_range.mp hj
        show _ = s.disk (s.blk ip ((off + j) / BSIZE)) ((off + j) % BSIZE)
        rw [div_add_of_lt (by omega), mod_add_of_lt (by omega)]
      · refine List.map_congr_left fun j _ => ?_
        rw [Function.comp, Nat.add_assoc]

/-! ## Writing a block of the file -/

theorem Editing.onDisk (h : Editing s ip) : OnDisk s ip where
  indirect h0 := h.layout.lt (h.indirect h0).2.2
  blk bn h0 := by
    rw [← h.refs_blk] at h0 ⊢
    refine ⟨h.layout.lt (h.own.data h0).2, ?_⟩
    by_contra hbn
    rw [h.refs_self] at h0
    refine h0 ?_
    have hlast : NREF ≤ slotOf bn := by
      unfold MAXFILE at hbn
      unfold slotOf NREF
      split_ifs
      all_goals omega
    unfold refAt
    rw [if_neg (by unfold NREF at hlast; omega), if_pos (Or.inr hlast)]

theorem Editing.write_data (h : Editing s ip) (hb : s.blk ip bn ≠ 0) {m : Bytes}
    (hs' : s' = s.write (s.blk ip bn) m) :
    Editing s' ip ∧ Edit ip s s' ∧ (∀ bn', s'.blk ip bn' = s.blk ip bn') ∧
      nfree s'.sb s'.disk = nfree s.sb s.disk := by
  have hsb : s'.sb = s.sb := by rw [hs']; rfl
  have hic : s'.icache = s.icache := by rw [hs']; rfl
  have hdisk : ∀ c, c ≠ s.blk ip bn → s'.disk c = s.disk c := by
    intro c hc
    rw [hs']
    exact update_of_ne hc _ _
  have href : s.refs ip ((s.icache ip).inum, slotOf bn) = s.blk ip bn := h.refs_blk
  have hdata : Data s.sb (s.blk ip bn) := by
    rw [← href] at hb ⊢
    exact h.own.data hb
  -- another reference does not lead to this block
  have hother : ∀ x, s.refs ip x ≠ 0 → x ≠ ((s.icache ip).inum, slotOf bn) →
      s.refs ip x ≠ s.blk ip bn := by
    intro x hx hne e
    rw [← href] at e hb
    exact hne (h.own.exact.inj hb e)
  have hino : ∀ j < s.sb.nino, s'.disk (IBLOCK j s.sb) = s.disk (IBLOCK j s.sb) :=
    fun j hj => hdisk _ (h.layout.ne_IBLOCK hdata hj).symm
  have htable : ∀ j < s.sb.nino, table s' ip j = table s ip j := by
    intro j hj
    unfold table
    rw [hic, hsb]
    by_cases e : j = (s.icache ip).inum
    · rw [e, update_self, update_self]
    · rw [update_of_ne e, update_of_ne e]
      exact dinode_congr (hino j hj)
  have hind : ∀ j < s.sb.nino, (table s ip j).type ≠ T_FREE →
      ((table s ip j).addr NDIRECT).toNat ≠ 0 →
      s'.disk ((table s ip j).addr NDIRECT).toNat = s.disk ((table s ip j).addr NDIRECT).toNat := by
    intro j hj ht h0
    obtain ⟨he, -⟩ := h.own.indirect hj ht h0
    refine hdisk _ ?_
    rw [← he] at h0 ⊢
    exact hother _ h0 fun e => slotOf_ne bn (congrArg Prod.snd e).symm
  have hrefs : ∀ x, s'.refs ip x = s.refs ip x := by
    intro x
    unfold Store.refs
    rw [hsb]
    exact refs_congr (fun j hj => by rw [htable j hj]) (fun j hj _ => by rw [htable j hj]) hind x
  have hused : ∀ c < s.sb.size, inUse s.sb s'.disk c = inUse s.sb s.disk c :=
    fun c hc => inUse_congr (hdisk _ (h.layout.ne_BBLOCK hdata hc).symm)
  have hed : Editing s' ip := by
    refine ⟨by rw [hs']; exact h.layout, ⟨?_, fun c hc => ?_⟩, by rw [hic, hsb]; exact h.lt,
      by rw [hic]; exact h.type, by rw [hs']; exact h.op⟩
    · rw [hsb]
      refine h.own.exact.congr (fun x => ?_) fun c hc => hused c hc.2
      have := hrefs x
      unfold Store.refs at this
      rwa [hsb] at this
    · rw [hsb] at hc ⊢
      rw [hused c (Nat.lt_of_lt_of_le hc s.sb.nmeta_le), h.own.area c hc]
  refine ⟨hed, ⟨by rw [hs']; exact ⟨rfl, rfl, rfl, rfl, rfl⟩, fun _ _ => by rw [hic], ⟨_, by rw [hic]⟩, hino, fun x _ => hrefs x, fun x _ => hrefs x,
    fun x hx h0 => hdisk _ (hother x h0 fun e => hx (by rw [e]))⟩, fun bn' => ?_, ?_⟩
  · have := hrefs ((s.icache ip).inum, slotOf bn')
    rwa [h.refs_blk, ← hic, hed.refs_blk] at this
  · rw [hsb]
    exact nfree_congr hused

/-! ## Writing -/

/-- What writing `src` at `off` does to the bytes of the file in place `ip`. -/
structure Written (ip : Ip) (off : ℕ) (src : List (BitVec 8)) (s s' : Store) : Prop where
  editing : Editing s' ip
  edit : Edit ip s s'
  new : ∀ o, off ≤ o → o < off + src.length →
    s'.blk ip (o / BSIZE) ≠ 0 ∧ s'.byte ip o = src.getD (o - off) 0
  old : ∀ o, (o < off ∨ off + src.length ≤ o) → s.blk ip (o / BSIZE) ≠ 0 →
    s'.byte ip o = s.byte ip o
  same : (∀ o, off ≤ o → o < off + src.length → s.blk ip (o / BSIZE) ≠ 0) → s'.icache = s.icache

theorem Edit.blk (h : Edit ip s s') (hs : Editing s ip) (hs' : Editing s' ip)
    (hb : s.blk ip bn ≠ 0) : s'.blk ip bn = s.blk ip bn := by
  have := h.keep ((s.icache ip).inum, slotOf bn) (by rw [hs.refs_blk]; exact hb)
  rwa [hs.refs_blk, ← h.inum, hs'.refs_blk] at this

namespace Written

theorem nil (h : Editing s ip) (off : ℕ) : Written ip off [] s s where
  editing := h
  edit := .refl ip s
  new _ h₁ h₂ := absurd h₂ (Nat.not_lt.mpr h₁)
  old _ _ _ := rfl
  same _ := rfl

theorem append (hs : Editing s ip) (h : Written ip off src s s')
    (h' : Written ip (off + src.length) src' s' s'') : Written ip off (src ++ src') s s'' where
  editing := h'.editing
  edit := h.edit.trans h'.edit
  new o h₁ h₂ := by
    rw [List.length_append] at h₂
    by_cases ho : o < off + src.length
    · obtain ⟨hblk, hbyte⟩ := h.new o h₁ ho
      refine ⟨?_, ?_⟩
      · rw [h'.edit.blk h.editing h'.editing hblk]
        exact hblk
      · rw [h'.old o (Or.inl ho) hblk, hbyte, List.getD_append _ _ _ _ (by omega)]
    · have ho := Nat.le_of_not_lt ho
      obtain ⟨hblk, hbyte⟩ := h'.new o ho (by omega)
      refine ⟨hblk, ?_⟩
      rw [hbyte, List.getD_append_right _ _ _ _ (by omega), Nat.sub_add_eq]
  old o ho hblk := by
    rw [List.length_append] at ho
    have hblk' : s'.blk ip (o / BSIZE) ≠ 0 := by
      rw [h.edit.blk hs h.editing hblk]
      exact hblk
    rw [h'.old o (by omega) hblk', h.old o (by omega) hblk]
  same hblk := by
    rw [List.length_append] at hblk
    have hsame := h.same fun o h₁ h₂ => hblk o h₁ (by omega)
    rw [h'.same fun o h₁ h₂ => ?_, hsame]
    have hb := hblk o (by omega) (by omega)
    rw [h.edit.blk hs h.editing hb]
    exact hb

theorem chunk (hm : Mapped ip (off / BSIZE) a s s') (hs : Editing s ip)
    (hlen : off % BSIZE + src.length ≤ BSIZE)
    (hs'' : s'' = s'.write a (blit (s'.disk a) (off % BSIZE) src)) (hsrc : src ≠ []) :
    Written ip off src s s'' ∧ nfree s.sb s.disk + needsIndirect s'' ip ≤
      nfree s''.sb s''.disk + 1 + needsIndirect s ip := by
  have ha := hm.blk
  have hblk : s'.blk ip (off / BSIZE) ≠ 0 := by
    rw [ha]
    exact hm.ne
  rw [← ha] at hs''
  obtain ⟨hed, hedit, hsame, hfree⟩ := hm.editing.write_data hblk hs''
  have hpos : 0 < src.length := List.length_pos_iff.mpr hsrc
  have hdisk : s''.disk (s'.blk ip (off / BSIZE)) =
      blit (s'.disk (s'.blk ip (off / BSIZE))) (off % BSIZE) src := by
    rw [hs'']
    exact update_self _ _ _
  have hmod := Nat.mod_lt off BSIZE_pos
  refine ⟨⟨hed, hm.edit.trans hedit, fun o h₁ h₂ => ?_, fun o ho hb => ?_, fun hb => ?_⟩, ?_⟩
  · obtain ⟨j, rfl⟩ := Nat.exists_eq_add_of_le h₁
    have hj : off % BSIZE + j < BSIZE := by omega
    rw [div_add_of_lt hj, hsame]
    refine ⟨hblk, ?_⟩
    show s''.disk (s''.blk ip ((off + j) / BSIZE)) ((off + j) % BSIZE) = _
    rw [div_add_of_lt hj, mod_add_of_lt hj, hsame, hdisk]
    unfold blit
    rw [if_pos ⟨by omega, by omega⟩, Nat.add_sub_cancel_left, Nat.add_sub_cancel_left]
  · -- outside of the chunk, but perhaps in the same block
    have hb' := hm.edit.blk hs hm.editing hb
    have hkeep : s'.byte ip o = s.byte ip o := by
      show s'.disk (s'.blk ip (o / BSIZE)) _ = s.disk (s.blk ip (o / BSIZE)) _
      have := hm.keeps (slotOf (o / BSIZE)) (slotOf_ne _) (by rw [hs.refs_blk]; exact hb)
      rw [hs.refs_blk] at this
      rw [hb', this]
    rw [← hkeep]
    show s''.disk (s''.blk ip (o / BSIZE)) _ = s'.disk (s'.blk ip (o / BSIZE)) _
    rw [hsame]
    by_cases e : o / BSIZE = off / BSIZE
    · rw [e, hdisk]
      unfold blit
      rw [if_neg]
      unfold BSIZE at *
      omega
    · have hne : s'.blk ip (o / BSIZE) ≠ s'.blk ip (off / BSIZE) := by
        intro eb
        rw [← hm.editing.refs_blk, ← hm.editing.refs_blk] at eb
        rw [← hm.editing.refs_blk] at hblk
        have hinj := hm.editing.own.exact.inj hblk eb
        exact e (slotOf_inj (congrArg Prod.snd hinj))
      rw [hs'']
      exact congrFun (update_of_ne hne _ _) _
  · have hfirst := hb off (Nat.le_refl _) (by omega)
    rw [hs'']
    show s'.icache = s.icache
    rw [hm.same hfirst]
  · have hneed : needsIndirect s'' ip = needsIndirect s' ip := by
      rw [hs'']
      rfl
    rw [hneed, hfree]
    exact hm.nfree

end Written

/-- The number of blocks that `n` bytes from `off` on lie in. -/
def chunks (off n : ℕ) : ℕ := if n = 0 then 0 else (off % BSIZE + n + (BSIZE - 1)) / BSIZE

theorem chunks_succ (off : ℕ) (hn : n ≠ 0) : chunks off n =
    1 + chunks (off + min n (BSIZE - off % BSIZE)) (n - min n (BSIZE - off % BSIZE)) := by
  have hmod := Nat.mod_lt off BSIZE_pos
  unfold chunks
  rw [if_neg hn]
  by_cases h : n ≤ BSIZE - off % BSIZE
  · rw [Nat.min_eq_left h, Nat.sub_self, if_pos rfl]
    unfold BSIZE at *
    omega
  · have h := Nat.le_of_not_le h
    rw [Nat.min_eq_right h]
    by_cases h0 : n - (BSIZE - off % BSIZE) = 0
    · rw [if_pos h0]
      unfold BSIZE at *
      omega
    · rw [if_neg h0]
      unfold BSIZE at *
      omega

theorem chunks_le : chunks off n ≤ n / BSIZE + 2 := by
  unfold chunks
  split_ifs
  · exact Nat.zero_le _
  · unfold BSIZE
    omega

/-- The loop of `writei`. -/
theorem writeLoop_spec (h : Editing s ip) (hk : src.length ≤ k)
    (hoff : off + src.length ≤ MAXFILE * BSIZE) :
    wp (OutOfBlocks s (chunks off src.length + needsIndirect s ip)) (writeLoop ip k off src)
      (fun off' s' => off' = off + src.length ∧ Written ip off src s s' ∧
        nfree s.sb s.disk + needsIndirect s' ip ≤
          nfree s'.sb s'.disk + chunks off src.length + needsIndirect s ip) s := by
  induction k generalizing off src s with
  | zero =>
    have hnil : src = [] := List.length_eq_zero_iff.mp (Nat.le_zero.mp hk)
    subst hnil
    exact ⟨rfl, .nil h off, by omega⟩
  | succ k ih =>
    unfold writeLoop
    dsimp only
    by_cases hnil : src = []
    · subst hnil
      rw [if_pos rfl]
      exact ⟨rfl, .nil h off, by omega⟩
    have hmod := Nat.mod_lt off BSIZE_pos
    have hpos : 0 < src.length := List.length_pos_iff.mpr hnil
    have hm0 : 0 < min src.length (BSIZE - off % BSIZE) := by omega
    have hbn : off / BSIZE < MAXFILE := Nat.div_lt_of_lt_mul (by rw [Nat.mul_comm]; omega)
    have hcount := chunks_succ off (Nat.ne_of_gt hpos)
    rw [if_neg hnil, wp_bind]
    refine wp_weaken (wp_mono (bmap_spec h hbn) ?_) fun e he => ⟨he.1, by have := he.2; omega⟩
    intro a s₁ hm
    rw [wp_bind]
    refine wp_bread (by rw [← hm.blk] at *; exact (hm.editing.onDisk.blk _ hm.ne).1) ?_
    rw [wp_bind]
    refine wp_log_write hm.editing.op ?_
    generalize hm' : min src.length (BSIZE - off % BSIZE) = m at *
    have htake : (src.take m).length = m := by
      rw [List.length_take]
      omega
    have hdrop : (src.drop m).length = src.length - m := List.length_drop
    obtain ⟨hw, hfree⟩ := Written.chunk hm h (by rw [htake]; omega) rfl fun hnil => by
      rw [hnil] at htake
      exact absurd htake (Nat.ne_of_lt hm0)
    generalize s₁.write a (blit (s₁.disk a) (off % BSIZE) (src.take m)) = s₂ at *
    have hrest := @ih (off + m) s₂ (src.drop m) hw.editing (by omega) (by omega)
    rw [hdrop] at hrest
    refine wp_weaken (wp_mono hrest ?_) fun e he => ⟨he.1, by have := he.2; omega⟩
    rintro off' s' ⟨hoff', hw', hfree'⟩
    refine ⟨by omega, ?_, by omega⟩
    have := Written.append h hw (by rw [htake]; exact hw')
    rwa [List.take_append_drop] at this

end DuckoUnix.Fs
