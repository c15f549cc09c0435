import DuckoUnix.Fs.Trunc

/-!
# Allocating and freeing inodes

`ialloc` takes the first free inode and clears it. The last part of `iput` discards the contents of an
inode and marks it free. An inode that is free or has no blocks owns nothing, so the owners of blocks
stay the same when one of the two becomes the other.
-/

namespace DuckoUnix.Fs

open Lib

variable {sb : Superblock} {T T' : ℕ → Dinode} {d d' : Disk} {di : Dinode} {i j k n inum : ℕ}
  {s s' s'' : Store} {ip jp : Ip} {E : Halt → Prop} {type : BitVec 16}

def Dinode.Bare (di : Dinode) : Prop := di.type = T_FREE ∨ di.addrs = fun _ => 0

theorem refs_bare (h : (T i).Bare) : refs sb T d (i, k) = 0 := by
  unfold refs
  split_ifs with hc
  · exact refAt_of_bare (h.resolve_left hc.2)
  · rfl

theorem refs_replace (h : (T i).Bare) (h' : (T' i).Bare)
    (hT : ∀ j < sb.nino, j ≠ i → T' j = T j)
    (hd : ∀ j < sb.nino, (T j).type ≠ T_FREE → ((T j).addr NDIRECT).toNat ≠ 0 →
      d' ((T j).addr NDIRECT).toNat = d ((T j).addr NDIRECT).toNat) (x : ℕ × ℕ) :
    refs sb T' d' x = refs sb T d x := by
  obtain ⟨j, k⟩ := x
  by_cases hj : j = i
  · rw [hj, refs_bare h, refs_bare h']
  · unfold refs
    by_cases hlt : j < sb.nino
    · rw [hT j hlt hj]
      split_ifs with hc
      · exact refAt_congr rfl (hd j hlt hc.2)
      · rfl
    · rw [if_neg fun h => hlt h.1, if_neg fun h => hlt h.1]

theorem sameFile_setDinode {fssize : ℕ} (L : Layout sb fssize) (hown : Owned sb (dinode sb d) d)
    (hi : i < sb.nino) (hj : j < sb.nino) (ht : (dinode sb d j).type ≠ T_FREE) :
    SameFile d (setDinode sb d i di) (dinode sb d j) := by
  have hdata : ∀ k, refAt d (dinode sb d j) k ≠ 0 →
      setDinode sb d i di (refAt d (dinode sb d j) k) = d (refAt d (dinode sb d j) k) := by
    intro k h0
    rw [← refs_of hj ht] at h0 ⊢
    exact setDinode_of_ne (L.ne_IBLOCK (hown.data h0) hi)
  refine ⟨fun bn => refAt_congr rfl fun h0 => ?_, fun bn h0 => hdata _ h0⟩
  have := hdata NDIRECT
  rw [refAt_direct (Nat.le_refl _)] at this
  exact this h0

/-! ## `ialloc` -/

/-- The state after `ialloc` has claimed inode `i`. -/
def Store.claim (s : Store) (i : ℕ) (type : BitVec 16) : Store :=
  s.write (IBLOCK i s.sb)
    (putDinode (s.disk (IBLOCK i s.sb)) (i % IPB) { Dinode.zero with type := type })

theorem Store.claim_disk : (s.claim i type).disk =
    setDinode s.sb s.disk i { Dinode.zero with type := type } := rfl

/-- The loop of `ialloc` stops at the first free inode. -/
theorem iallocLoop_spec (type : BitVec 16) (L : Layout s.sb s.fssize) (hop : 0 < s.outstanding)
    (n inum : ℕ)
    (hn : ∀ j, inum ≤ j → j < inum + n → j < s.sb.nino) :
    wp (fun e => e = (.iallocNoInodes, s) ∧
        ∀ j, inum ≤ j → j < inum + n → (dinode s.sb s.disk j).type ≠ T_FREE)
      (iallocLoop type n inum) (fun i s' => inum ≤ i ∧ i < inum + n ∧
        (dinode s.sb s.disk i).type = T_FREE ∧
        (∀ j, inum ≤ j → j < i → (dinode s.sb s.disk j).type ≠ T_FREE) ∧ s' = s.claim i type) s := by
  induction n generalizing inum with
  | zero => exact ⟨rfl, fun j h₁ h₂ => by omega⟩
  | succ n ih =>
    unfold iallocLoop
    rw [wp_bind, wp_get]
    dsimp only
    rw [wp_bind]
    refine wp_bread (L.IBLOCK_lt_fssize (hn _ (Nat.le_refl _) (by omega))) (wp_ite (fun ht => ?_) fun ht => ?_)
    · rw [wp_bind]
      refine wp_log_write hop ?_
      exact ⟨Nat.le_refl _, by omega, ht, fun j h₁ h₂ => by omega, rfl⟩
    · have hfirst : ∀ j, inum ≤ j → j < inum + 1 → (dinode s.sb s.disk j).type ≠ T_FREE := by
        intro j h₁ h₂
        rw [show j = inum by omega]
        exact ht
      refine wp_weaken (wp_mono (ih (inum + 1) fun j h₁ h₂ => hn j (by omega) (by omega)) ?_) ?_
      · rintro i s' ⟨h₁, h₂, hfree, hused, hs'⟩
        refine ⟨by omega, by omega, hfree, fun j h₃ h₄ => ?_, hs'⟩
        by_cases hj : j < inum + 1
        · exact hfirst j h₃ hj
        · exact hused j (by omega) h₄
      · rintro e ⟨he, hused⟩
        refine ⟨he, fun j h₃ h₄ => ?_⟩
        by_cases hj : j < inum + 1
        · exact hfirst j h₃ hj
        · exact hused j (by omega) (by omega)

section Claim

variable (h : Sound s) (hi : i < s.sb.nino) (hs' : s' = s.claim i type)
include hs'

theorem claim_dinode :
    dinode s.sb s'.disk j = if j = i then { Dinode.zero with type := type } else dinode s.sb s.disk j := by
  rw [hs', Store.claim_disk, dinode_setDinode]

theorem claim_disk_of_ne {b : ℕ} (hb : b ≠ IBLOCK i s.sb) : s'.disk b = s.disk b := by
  rw [hs', Store.claim_disk, setDinode_of_ne hb]

include hi

theorem claim_inUse (b : ℕ) : inUse s.sb s'.disk b = inUse s.sb s.disk b :=
  inUse_congr (claim_disk_of_ne hs' (IBLOCK_ne_BBLOCK hi).symm)

include h

theorem claim_sameFile (hj : j < s.sb.nino) (ht : (dinode s.sb s.disk j).type ≠ T_FREE) :
    SameFile s.disk s'.disk (dinode s.sb s.disk j) := by
  rw [hs', Store.claim_disk]
  exact sameFile_setDinode h.layout h.own hi hj ht

/-- Claiming an inode that nobody has a copy of. -/
theorem Sound.claim (hfree : (dinode s.sb s.disk i).type = T_FREE)
    (hcopy : ∀ jp, 0 < (s.icache jp).ref → (s.icache jp).valid = true → (s.icache jp).inum ≠ i) :
    Sound s' := by
  have hsb : s'.sb = s.sb := by rw [hs']; rfl
  have hic : s'.icache = s.icache := by rw [hs']; rfl
  have hf : Fixed s s' := by
    rw [hs']
    exact ⟨rfl, rfl, rfl, rfl, rfl⟩
  refine h.keep hf hic ⟨?_, fun b hb => ?_⟩ fun jp hr hv => ?_
  · rw [hsb]
    refine h.own.exact.congr (refs_replace (Or.inl hfree) (Or.inr ?_) (fun j _ hj => ?_)
      fun j hj ht h0 => ?_) fun b _ => claim_inUse hi hs' b
    · rw [claim_dinode hs', if_pos rfl]
      rfl
    · rw [claim_dinode hs', if_neg hj]
    · exact claim_disk_of_ne hs' (h.layout.ne_IBLOCK (h.own.indirect hj ht h0).2.1 hi)
  · rw [hsb] at hb ⊢
    rw [claim_inUse hi hs']
    exact h.own.area b hb
  · rw [hsb, claim_dinode hs', if_neg (hcopy jp hr hv)]

end Claim

/-! ## The end of `iput` -/

/-- What freeing the inode in place `ip` has done to the store. -/
structure Ifreed (ip : Ip) (s s' : Store) : Prop extends Fixed s s' where
  sound : Sound s'
  others : ∀ jp, jp ≠ ip → s'.icache jp = s.icache jp
  entry : s'.icache ip = { s.icache ip with
    valid := false
    din := { (s.icache ip).din with type := T_FREE, size := 0, addrs := fun _ => 0 } }
  dinode : dinode s.sb s'.disk (s.icache ip).inum = (s'.icache ip).din
  inodes : ∀ j < s.sb.nino, j ≠ (s.icache ip).inum →
    Fs.dinode s.sb s'.disk j = Fs.dinode s.sb s.disk j
  files : ∀ j < s.sb.nino, j ≠ (s.icache ip).inum → (Fs.dinode s.sb s.disk j).type ≠ T_FREE →
    SameFile s.disk s'.disk (Fs.dinode s.sb s.disk j)
  room : nfree s.sb s.disk ≤ nfree s'.sb s'.disk

theorem Truncated.mark (ht : Truncated ip s s') (hr : 0 < (s.icache ip).ref)
    (hs'' : s'' = s'.put ip { s'.icache ip with din := { (s'.icache ip).din with type := T_FREE } }) :
    SoundBut s'' ip := by
  have hdisk : s''.disk = s'.disk := by rw [hs'']; rfl
  have hself : s''.icache ip =
      { s'.icache ip with din := { (s'.icache ip).din with type := T_FREE } } := by rw [hs'', put_self]
  have hinum : (s''.icache ip).inum = (s'.icache ip).inum := by rw [hself]
  have hfixed : Fixed s' s'' := by
    rw [hs'']
    exact ⟨rfl, rfl, rfl, rfl, rfl⟩
  have hbare : (Fs.dinode s'.sb s'.disk (s'.icache ip).inum).addrs = fun _ => 0 := by
    have hi : (s'.icache ip).inum = (s.icache ip).inum := by rw [ht.entry]
    rw [ht.sb, hi, ht.dinode, ht.entry]
  refine ht.sound.but (by rw [ht.entry]; exact hr) hfixed ⟨?_, ?_⟩ (by rw [hself]) hinum
    (fun jp hj => by rw [hs'', put_of_ne hj]) fun j _ _ => by rw [hdisk]
  · rw [hfixed.sb, hdisk]
    refine ht.sound.own.exact.congr (refs_replace (i := (s'.icache ip).inum) (Or.inr hbare)
      (Or.inl ?_) (fun j _ hj => ?_) fun _ _ _ _ => rfl) fun _ _ => rfl
    · rw [← hinum, table_self, hself]
    · rw [table_of_ne (by rw [hinum]; exact hj), hfixed.sb, hdisk]
  · rw [hfixed.sb, hdisk]
    exact ht.sound.own.area

/-- The inode is freed on the disk. -/
theorem ifree_spec (h : Sound s) (hl : Live s ip) (hop : 0 < s.outstanding) :
    wp E (ifree ip) (fun _ s' => Ifreed ip s s') s := by
  unfold ifree
  rw [wp_bind]
  refine wp_mono (itrunc_spec h hl hop) fun _ s₁ ht => ?_
  rw [wp_bind, wp_setDin]
  generalize hs₂ : s₁.put ip { s₁.icache ip with din := { (s₁.icache ip).din with type := T_FREE } } = s₂
  have hbut := ht.mark hl.ref hs₂.symm
  have hsb : s₂.sb = s.sb := by rw [← hs₂]; exact ht.sb
  have hdisk : s₂.disk = s₁.disk := by rw [← hs₂]; rfl
  have hself : s₂.icache ip = { s.icache ip with
      din := { (s.icache ip).din with type := T_FREE, size := 0, addrs := fun _ => 0 } } := by
    rw [← hs₂, put_self, ht.entry]
  have hother : ∀ jp, jp ≠ ip → s₂.icache jp = s.icache jp := by
    intro jp hj
    rw [← hs₂, put_of_ne hj, ht.others jp hj]
  have hop₂ : 0 < s₂.outstanding := by
    rw [← hs₂]
    show 0 < s₁.outstanding
    rw [ht.outstanding]
    exact hop
  have hi := hbut.inum ip hbut.ref
  have hinum : (s₂.icache ip).inum = (s.icache ip).inum := by rw [hself]
  rw [wp_bind]
  refine iupdate_wp hbut.layout hi hop₂ ?_
  generalize hs₃ : s₂.update ip = s₃
  have hsound : Sound s₃ := hbut.update (fun _ => by rw [hself]; exact ⟨rfl, rfl⟩) hs₃.symm
  have hic : s₃.icache = s₂.icache := by rw [← hs₃]; rfl
  have hdino : ∀ j, Fs.dinode s.sb s₃.disk j = table s₂ ip j := by
    intro j
    rw [← hs₃, ← hsb]
    exact dinode_update
  have hdino' : ∀ j < s.sb.nino, j ≠ (s.icache ip).inum →
      Fs.dinode s.sb s₃.disk j = Fs.dinode s.sb s.disk j := by
    intro j hj hne
    rw [hdino, table_of_ne (by rw [hinum]; exact hne), hsb, hdisk, ht.inodes j hj hne]
  rw [wp_setInode]
  generalize hs₄ : s₃.put ip { s₃.icache ip with valid := false } = s₄
  have hself₄ : s₄.icache ip = { s.icache ip with
      valid := false
      din := { (s.icache ip).din with type := T_FREE, size := 0, addrs := fun _ => 0 } } := by
    rw [← hs₄, put_self, hic, hself]
  have hdisk₄ : s₄.disk = s₃.disk := by rw [← hs₄]; rfl
  have hfixed : Fixed s₁ s₄ := by
    rw [← hs₄, ← hs₃, ← hs₂]
    exact ⟨rfl, rfl, rfl, rfl, rfl⟩
  have hsound₄ : Sound s₄ := by
    rw [← hs₄]
    exact hsound.put (hsound.inum ip) (fun hr jp hj hr' e => hj (hsound.unique jp ip hr' hr e))
      fun _ hv => absurd hv Bool.false_ne_true
  refine ⟨ht.toFixed.trans hfixed, hsound₄, fun jp hj => ?_, hself₄, ?_, ?_,
    fun j hj hne htj => ?_, ?_⟩
  · rw [← hs₄, put_of_ne hj, hic, hother jp hj]
  · rw [hdisk₄, hdino, ← hinum, table_self, hself, hself₄]
  · rw [hdisk₄]
    exact hdino'
  · have htab : table s₂ ip j = Fs.dinode s.sb s.disk j := by
      rw [← hdino, hdino' j hj hne]
    have hupd := sameFile_update hbut.layout hbut.own hi (j := j) (by rw [hsb]; exact hj)
      (by rw [htab]; exact htj)
    rw [htab, hs₃, hdisk] at hupd
    rw [hdisk₄]
    exact (ht.files j hj hne htj).trans hupd
  · refine Nat.le_trans ht.room (Nat.le_of_eq ?_)
    rw [hfixed.sb, ht.sb, hdisk₄]
    refine (nfree_congr fun c _ => ?_).symm
    rw [← hs₃, ← hdisk, ← hsb]
    exact inUse_update hi

end DuckoUnix.Fs
