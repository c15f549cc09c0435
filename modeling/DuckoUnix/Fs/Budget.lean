import DuckoUnix.Fs.Files

/-!
# The blocks that a write passes to `log_write`

A chunk of `filewrite` must fit into one transaction. A write passes to `log_write` the blocks it
stores data in, for every block it allocates the block of the free map with its bit, the indirect
block, and the inode. The indirect block is the same one all the time, and it is allocated at most
once; and the first block is only allocated if the write begins at the start of it.
-/

namespace DuckoUnix.Fs

open Lib Function

variable {a b bn k n m off : ℕ} {s s' s'' : Store} {ip : Ip} {B B' D : Finset ℕ} {E : Halt → Prop}
  {src : List (BitVec 8)}

namespace Logs

theorem refl (s : Store) (B : Finset ℕ) : Logs s s B :=
  ⟨[], (List.append_nil _).symm, fun _ h => absurd h List.not_mem_nil⟩

theorem trans (h : Logs s s' B) (h' : Logs s' s'' B') : Logs s s'' (B ∪ B') := by
  obtain ⟨l, hl, hB⟩ := h
  obtain ⟨l', hl', hB'⟩ := h'
  refine ⟨l ++ l', by rw [hl', hl, List.append_assoc], fun b hb => ?_⟩
  rcases List.mem_append.mp hb with hb | hb
  · exact Finset.mem_union_left _ (hB b hb)
  · exact Finset.mem_union_right _ (hB' b hb)

theorem mono (h : Logs s s' B) (hB : B ⊆ B') : Logs s s' B' := by
  obtain ⟨l, hl, hm⟩ := h
  exact ⟨l, hl, fun b hb => hB (hm b hb)⟩

theorem card_le (h : Logs s s' B) : ((s'.logged.drop s.logged.length).toFinset).card ≤ B.card := by
  obtain ⟨l, hl, hm⟩ := h
  rw [hl, List.drop_left]
  exact Finset.card_le_card fun b hb => hm b (List.mem_toFinset.mp hb)

end Logs

/-! ## One block -/

/-- Besides the indirect block, at most `n` blocks have been passed to `log_write`. -/
def Budget (ip : Ip) (n : ℕ) (s s' : Store) : Prop :=
  indirects s ip ⊆ indirects s' ip ∧ ∃ D : Finset ℕ, D.card ≤ n ∧ Logs s s' (D ∪ indirects s' ip)

theorem Budget.refl (ip : Ip) (n : ℕ) (s : Store) : Budget ip n s s :=
  ⟨Finset.Subset.refl _, ∅, Nat.zero_le _, Logs.refl s _⟩

theorem Budget.trans (h : Budget ip n s s') (h' : Budget ip m s' s'') : Budget ip (n + m) s s'' := by
  obtain ⟨hi, D, hD, hl⟩ := h
  obtain ⟨hi', D', hD', hl'⟩ := h'
  refine ⟨hi.trans hi', D ∪ D', Nat.le_trans (Finset.card_union_le _ _) (Nat.add_le_add hD hD'),
    (hl.trans hl').mono ?_⟩
  intro b hb
  have := @hi' b
  simp only [Finset.mem_union] at hb ⊢
  tauto

theorem Budget.mono (h : Budget ip n s s') (hn : n ≤ m) : Budget ip m s s' := by
  obtain ⟨hi, D, hD, hl⟩ := h
  exact ⟨hi, D, Nat.le_trans hD hn, hl⟩

theorem indirects_congr (h : s'.icache ip = s.icache ip) : indirects s' ip = indirects s ip := by
  unfold indirects
  rw [h]

/-- What `bmap` has passed to `log_write`; the block that it returns counts too. -/
def MapBudget (ip : Ip) (bn a : ℕ) (s s' : Store) : Prop :=
  indirects s ip ⊆ indirects s' ip ∧ ∃ D : Finset ℕ,
    D.card + needsIndirect s' ip ≤ (if s.blk ip bn = 0 then 1 else 0) + needsIndirect s ip ∧
      Logs s s' (insert a D ∪ indirects s' ip)

theorem Editing.indirects_attached (h : Editing s ip) (ha : Attaches ip k a s s') :
    indirects s ip ⊆ indirects s' ip := by
  unfold indirects
  rw [h.addr_attached ha]
  by_cases e : k = NDIRECT
  · subst e
    rw [if_pos (h.indirect_attached ha).1]
    exact Finset.empty_subset _
  · rw [if_neg e]

theorem MapBudget.attached (h : Editing s ip) (ha : Attaches ip (slotOf bn) a s s') :
    MapBudget ip bn a s s' := by
  refine ⟨h.indirects_attached ha, {BBLOCK a s.sb}, ?_, ha.logged⟩
  rw [h.needsIndirect_attached ha (slotOf_ne bn), if_pos (h.refs_blk.symm.trans ha.none),
    Finset.card_singleton]

theorem bmap_logs (h : Editing s ip) (hbn : bn < MAXFILE) :
    wp (fun e => Budget ip (needsIndirect s ip) s e.2) (bmap ip bn)
      (fun a s' => MapBudget ip bn a s s') s := by
  refine bmap_wp h hbn (fun _ => ?_) (fun _ => Budget.refl ip _ s) (fun a s' => .attached h)
    fun i t ha hblk => ?_
  · exact ⟨Finset.Subset.refl _, ∅, by rw [Finset.card_empty]; omega, Logs.refl s _⟩
  obtain ⟨h0, hself, hi⟩ := h.indirect_attached ha
  have hsub := h.indirects_attached ha
  have hneed : needsIndirect s ip = 1 := if_pos h0
  have hneed' : needsIndirect t ip = 0 := if_neg (by rw [hself]; exact hi)
  have hlogs : Logs s t ({BBLOCK i s.sb} ∪ indirects t ip) := by
    refine ha.logged.mono ?_
    rw [indirects_of_ne (by rw [hself]; exact hi), hself]
    intro b hb
    simp only [Finset.mem_union, Finset.mem_insert, Finset.mem_singleton] at hb ⊢
    tauto
  refine ⟨fun _ => ⟨hsub, {BBLOCK i s.sb}, by rw [hneed]; rfl, hlogs⟩, fun a s' ha' => ?_⟩
  obtain ⟨hsub', D, hD, hlogs'⟩ := MapBudget.attached (h.attach ha).1 ha'
  refine ⟨hsub.trans hsub', insert (BBLOCK i s.sb) D, ?_, (hlogs.trans hlogs').mono ?_⟩
  · have hcard := Finset.card_insert_le (BBLOCK i s.sb) D
    have hif : (if t.blk ip bn = 0 then 1 else 0) ≤ 1 := by
      split_ifs
      all_goals omega
    rw [if_pos hblk]
    omega
  · intro b hb
    have := @hsub' b
    simp only [Finset.mem_union, Finset.mem_insert, Finset.mem_singleton] at hb ⊢
    tauto

/-! ## A write -/

/-- 1 if the first block of the write exists. -/
def begun (s : Store) (ip : Ip) (off n : ℕ) : ℕ := if n ≠ 0 ∧ s.blk ip (off / BSIZE) ≠ 0 then 1 else 0

theorem MapBudget.write (hm : MapBudget ip bn a s s') (m : Bytes) :
    Budget ip ((if s.blk ip bn = 0 then 2 else 1) + needsIndirect s ip - needsIndirect s' ip) s
      (s'.write a m) := by
  obtain ⟨hsub, D, hD, hlogs⟩ := hm
  have hind : indirects (s'.write a m) ip = indirects s' ip := indirects_congr rfl
  have hwrite : Logs s' (s'.write a m) {a} := ⟨[a], rfl, fun b hb => by simpa using hb⟩
  refine ⟨by rw [hind]; exact hsub, insert a D, ?_, (hlogs.trans hwrite).mono ?_⟩
  · have hcard := Finset.card_insert_le a D
    split_ifs at hD ⊢
    all_goals omega
  · rw [hind]
    intro b hb
    simp only [Finset.mem_union, Finset.mem_insert, Finset.mem_singleton] at hb ⊢
    tauto

theorem writeLoop_logs (h : Editing s ip) (hk : src.length ≤ k)
    (hoff : off + src.length ≤ MAXFILE * BSIZE)
    (hn : 2 * chunks off src.length + needsIndirect s ip ≤ n + begun s ip off src.length) :
    wp (fun e => Budget ip n s e.2) (writeLoop ip k off src) (fun _ s' => Budget ip n s s') s := by
  induction k generalizing off src s n with
  | zero => exact Budget.refl ip n s
  | succ k ih =>
    unfold writeLoop
    dsimp only
    by_cases hnil : src = []
    · rw [if_pos hnil]
      exact Budget.refl ip n s
    have hmod := Nat.mod_lt off BSIZE_pos
    have hpos : 0 < src.length := List.length_pos_iff.mpr hnil
    have hm0 : 0 < min src.length (BSIZE - off % BSIZE) := by omega
    have hbn : off / BSIZE < MAXFILE := Nat.div_lt_of_lt_mul (by rw [Nat.mul_comm]; omega)
    have hcount := chunks_succ off (Nat.ne_of_gt hpos)
    have hbegun : begun s ip off src.length + (if s.blk ip (off / BSIZE) = 0 then 2 else 1) = 2 := by
      unfold begun
      by_cases hblk : s.blk ip (off / BSIZE) = 0
      · rw [if_neg fun h => h.2 hblk, if_pos hblk]
      · rw [if_pos ⟨Nat.ne_of_gt hpos, hblk⟩, if_neg hblk]
    rw [if_neg hnil, wp_bind]
    refine wp_weaken (wp_mono (wp_both (bmap_spec h hbn) (bmap_logs h hbn)) ?_)
      fun e he => he.2.mono (by omega)
    rintro a s₁ ⟨hm, hlogs⟩
    rw [wp_bind]
    refine wp_bread (by rw [← hm.blk] at *; exact (hm.editing.onDisk.blk _ hm.ne).1) ?_
    rw [wp_bind]
    refine wp_log_write hm.editing.op ?_
    have hbudget := hlogs.write (blit (s₁.disk a) (off % BSIZE)
      (src.take (min src.length (BSIZE - off % BSIZE))))
    generalize hm' : min src.length (BSIZE - off % BSIZE) = m at *
    have hdrop : (src.drop m).length = src.length - m := List.length_drop
    have hblk : s₁.blk ip (off / BSIZE) ≠ 0 := by
      rw [hm.blk]
      exact hm.ne
    have hs₂ : s₁.write a (blit (s₁.disk a) (off % BSIZE) (src.take m)) =
        s₁.write (s₁.blk ip (off / BSIZE)) (blit (s₁.disk a) (off % BSIZE) (src.take m)) := by
      rw [hm.blk]
    obtain ⟨hed, -⟩ := hm.editing.write_data hblk hs₂
    have hneed : needsIndirect (s₁.write a (blit (s₁.disk a) (off % BSIZE) (src.take m))) ip =
        needsIndirect s₁ ip := rfl
    generalize s₁.write a (blit (s₁.disk a) (off % BSIZE) (src.take m)) = s₂ at *
    have hle : needsIndirect s₁ ip ≤ needsIndirect s ip + 1 := by
      unfold needsIndirect
      split_ifs
      all_goals omega
    have hrest := @ih (2 * chunks (off + m) (src.length - m) + needsIndirect s₁ ip) (off + m) s₂
      (src.drop m) hed (by omega) (by omega) (by rw [hdrop, hneed]; omega)
    have hsplit : ∀ {t : Store}, Budget ip (2 * chunks (off + m) (src.length - m) +
        needsIndirect s₁ ip) s₂ t → Budget ip n s t := by
      intro t ht
      refine (hbudget.trans ht).mono ?_
      split_ifs at hbegun ⊢
      all_goals omega
    exact wp_weaken (wp_mono hrest fun _ _ h => hsplit h) fun _ h => hsplit h

theorem begun_of_unaligned (hn : NoHole s.disk (s.icache ip).din)
    (hoff : off ≤ (s.icache ip).din.size.toNat) (hmod : off % BSIZE ≠ 0) (hm : m ≠ 0) :
    begun s ip off m = 1 := by
  refine if_pos ⟨hm, ?_⟩
  have hlt : off - 1 < (s.icache ip).din.size.toNat := by
    have : off ≠ 0 := fun e => hmod (by rw [e]; rfl)
    omega
  have hdiv : off / BSIZE = (off - 1) / BSIZE := by
    unfold BSIZE at *
    omega
  rw [hdiv]
  exact hn.blk hlt

/-- What a chunk of `filewrite` costs besides the indirect block and the inode. -/
theorem chunks_budget (hn : NoHole s.disk (s.icache ip).din)
    (hoff : off ≤ (s.icache ip).din.size.toNat) (hm : m ≤ ((MAXOPBLOCKS - 1 - 1 - 2) / 2) * 512) :
    2 * chunks off m + needsIndirect s ip ≤ 8 + begun s ip off m := by
  have hneed : needsIndirect s ip ≤ 1 := by
    unfold needsIndirect
    split_ifs
    all_goals omega
  have hm' : m ≤ 1536 := hm
  by_cases hzero : m = 0
  · rw [hzero]
    have : chunks off 0 = 0 := rfl
    omega
  by_cases hmod : off % BSIZE = 0
  · have : chunks off m ≤ 3 := by
      unfold chunks
      rw [if_neg hzero, hmod]
      unfold BSIZE
      omega
    omega
  · have hbegun := begun_of_unaligned hn hoff hmod hzero
    have : chunks off m ≤ 4 := by
      unfold chunks
      rw [if_neg hzero]
      unfold BSIZE at *
      omega
    omega

theorem card_indirects_le (s : Store) (ip : Ip) : (indirects s ip).card ≤ 1 := by
  unfold indirects
  split_ifs
  · exact Nat.zero_le _
  · exact Nat.le_of_eq (Finset.card_singleton _)

/-- At most `n` different blocks have been passed to `log_write`. -/
def LogsAtMost (n : ℕ) (s s' : Store) : Prop := ∃ B : Finset ℕ, B.card ≤ n ∧ Logs s s' B

theorem LogsAtMost.mono (h : LogsAtMost n s s') (hn : n ≤ m) : LogsAtMost m s s' := by
  obtain ⟨B, hB, hl⟩ := h
  exact ⟨B, Nat.le_trans hB hn, hl⟩

theorem LogsAtMost.trans (h : LogsAtMost n s s') (h' : LogsAtMost m s' s'') :
    LogsAtMost (n + m) s s'' := by
  obtain ⟨B, hB, hl⟩ := h
  obtain ⟨B', hB', hl'⟩ := h'
  exact ⟨B ∪ B', Nat.le_trans (Finset.card_union_le _ _) (Nat.add_le_add hB hB'), hl.trans hl'⟩

theorem Budget.atMost (h : Budget ip n s s') : LogsAtMost (n + 1) s s' := by
  obtain ⟨-, D, hD, hl⟩ := h
  exact ⟨_, Nat.le_trans (Finset.card_union_le _ _) (Nat.add_le_add hD (card_indirects_le s' ip)), hl⟩

/-- `writei` of a chunk, as `filewrite` makes it. -/
theorem writeFile_logs (h : Editing s ip) (hn : NoHole s.disk (s.icache ip).din)
    (hlen : src.length ≤ ((MAXOPBLOCKS - 1 - 1 - 2) / 2) * 512) :
    wp (fun e => LogsAtMost MAXOPBLOCKS s e.2) (writeFile ip src off)
      (fun _ s' => LogsAtMost MAXOPBLOCKS s s') s := by
  have hrefl : LogsAtMost MAXOPBLOCKS s s := ⟨∅, Nat.zero_le _, Logs.refl s _⟩
  have hmono : ∀ {t : Store}, Budget ip 8 s t → LogsAtMost MAXOPBLOCKS s t :=
    fun hb => hb.atMost.mono (by decide)
  unfold writeFile
  rw [wp_bind, wp_inode]
  dsimp only
  refine wp_ite (fun _ => hrefl) fun hc => wp_ite (fun _ => hrefl) fun hmax => ?_
  rw [wp_bind]
  refine wp_weaken (wp_mono (wp_both (writeLoop_spec h (Nat.le_refl _) (by omega))
    (writeLoop_logs h (Nat.le_refl _) (by omega) (chunks_budget hn (by omega) hlen))) ?_)
    fun e he => hmono he.2
  rintro off' s₁ ⟨⟨-, W, -⟩, hb⟩
  rw [wp_bind, wp_inode]
  by_cases hgrow : 0 < src.length ∧ (s₁.icache ip).din.size.toNat < off'
  · rw [if_pos hgrow, wp_bind, wp_setDin, wp_bind]
    refine iupdate_wp W.editing.layout ?_ W.editing.op ?_
    · rw [put_self]
      exact W.editing.lt
    · -- the inode block is the tenth
      exact hb.atMost.trans (m := 1) ⟨{_}, Nat.le_of_eq (Finset.card_singleton _), [_], rfl,
        fun b hb => Finset.mem_singleton.mpr (List.mem_singleton.mp hb)⟩
  · rw [if_neg hgrow]
    exact hmono hb

end DuckoUnix.Fs
