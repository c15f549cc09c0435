import DuckoUnix.Vm.Map

/-!
# Growing, shrinking and freeing an address space

The specifications of `deallocuvm`, `allocuvm` and `freevm`. User pages move between the free list
and the address space, whose entries say which pages it has; on an error nothing stays behind.
-/

namespace DuckoUnix.Vm

open Lib Function

variable {L : Layout} {E : Fault → Prop} {s s' s'' : Mem} {A A' X : Multiset Frame}
  {d t f : Frame} {P : ℕ → Prop}

/-- The number of pages that hold `sz` bytes. -/
def pgs (sz : ℕ) : ℕ := (sz + 4095) / 4096

theorem PGROUNDUP_eq {sz : ℕ} (h : sz ≤ KERNBASE) : PGROUNDUP sz = pgs sz * 4096 := by
  unfold KERNBASE at h
  unfold PGROUNDUP PGROUNDDOWN pgs PGSIZE UINT
  omega

theorem pgs_le {sz : ℕ} (h : sz ≤ KERNBASE) : pgs sz ≤ NUSER := by
  unfold KERNBASE at h
  unfold pgs NUSER
  omega

theorem Layout.not_valid_zero (L : Layout) : ¬ L.Valid 0 := by
  intro h
  have hk := h.1
  have := L.text_nonempty
  have := L.data_le_kend
  unfold KERNLINK at *
  simp at hk
  omega

/-- Pages move between the free list and the address space of `d`. -/
structure Changes (d : Frame) (s s' : Mem) : Prop where
  moves : Moves s (vm s.mem d) s' (vm s'.mem d)
  tab : ∀ i, (tab s'.mem d i).isSome → (tab s.mem d i).isSome ∨ i < 512
  fails : s.fails = [] → s'.fails = []

theorem Changes.refl : Changes d s s := ⟨Lib.Moves.refl, fun _ => .inl, id⟩

theorem Changes.trans (h : Changes d s s') (h' : Changes d s' s'') : Changes d s s'' where
  moves := h.moves.trans h'.moves
  tab i hi := (h'.tab i hi).elim (h.tab i) .inr
  fails hf := h'.fails (h.fails hf)

/-! ## deallocuvm -/

/-- The user pages from `v` to `w` are gone, and all other pages are as they were. -/
structure Drops (d : Frame) (v w : ℕ) (s s' : Mem) : Prop extends Changes d s s' where
  entry : ∀ x < NPAGES,
    Vm.entry s'.mem d x = if v ≤ x ∧ x < w then none else Vm.entry s.mem d x
  same : ∀ x < NUSER, ¬ (v ≤ x ∧ x < w) → ∀ e, Vm.entry s.mem d x = some e →
    s'.mem (PTE_ADDR e) = s.mem (PTE_ADDR e)

namespace Drops

variable {v w x : ℕ}

theorem refl (h : ∀ x < NPAGES, v ≤ x → x < w → Vm.entry s.mem d x = none) : Drops d v w s s := by
  refine ⟨.refl, fun x hx => ?_, fun _ _ _ _ _ => rfl⟩
  by_cases hin : v ≤ x ∧ x < w
  · rw [if_pos hin, h x hx hin.1 hin.2]
  · rw [if_neg hin]

theorem trans (h : Drops d v x s s') (h' : Drops d x w s' s'') (hvx : v ≤ x) (hxw : x ≤ w) :
    Drops d v w s s'' := by
  refine ⟨h.toChanges.trans h'.toChanges, fun y hy => ?_, fun y hy hout e he => ?_⟩
  · rw [h'.entry y hy, h.entry y hy]
    by_cases h1 : v ≤ y ∧ y < x
    · rw [if_pos h1, if_neg (by omega), if_pos (by omega)]
    · by_cases h2 : x ≤ y ∧ y < w
      · rw [if_pos h2, if_pos (by omega)]
      · rw [if_neg h1, if_neg h2, if_neg (by omega)]
  · have he' : Vm.entry s'.mem d y = some e := by
      rw [h.entry y (user_lt hy), if_neg (by omega), he]
    rw [h'.same y hy (by omega) e he', h.same y hy (by omega) e he]

theorem extend (h : Drops d x w s s')
    (hnone : ∀ y < NPAGES, v ≤ y → y < x → Vm.entry s.mem d y = none) (hvx : v ≤ x) :
    Drops d v w s s' := by
  refine ⟨h.toChanges, fun y hy => ?_, fun y hy hout => h.same y hy (by omega)⟩
  rw [h.entry y hy]
  by_cases h1 : x ≤ y ∧ y < w
  · rw [if_pos h1, if_pos (by omega)]
  · rw [if_neg h1]
    by_cases h2 : v ≤ y ∧ y < w
    · rw [if_pos h2, hnone y hy h2.1 (by omega)]
    · rw [if_neg h2]

theorem view (h : Drops d v w s s') (hx : x < NUSER) :
    Vm.view s'.mem d x = if v ≤ x ∧ x < w then none else Vm.view s.mem d x := by
  have he := h.entry x (user_lt hx)
  by_cases hin : v ≤ x ∧ x < w
  · rw [if_pos hin] at he ⊢
    exact view_of_no_entry he
  · rw [if_neg hin] at he ⊢
    exact view_congr he (h.same x hx hin)

end Drops

/-- The same with the page tables left in place and only the entries of those pages cleared. -/
structure Clears (d : Frame) (v w : ℕ) (s s' : Mem) : Prop extends Drops d v w s s' where
  tabs : Vm.tab s'.mem d = Vm.tab s.mem d
  pte : ∀ x < NPAGES, Vm.pte s'.mem d x =
    if v ≤ x ∧ x < w ∧ (Vm.entry s.mem d x).isSome then some 0 else Vm.pte s.mem d x

namespace Clears

variable {v w x : ℕ}

theorem refl (h : ∀ x < NPAGES, v ≤ x → x < w → Vm.entry s.mem d x = none) : Clears d v w s s :=
  ⟨.refl h, rfl, fun x hx => by
    rw [if_neg fun hin => ?_]
    rw [h x hx hin.1 hin.2.1] at hin
    cases hin.2.2⟩

theorem trans (h : Clears d v x s s') (h' : Clears d x w s' s'') (hvx : v ≤ x) (hxw : x ≤ w) :
    Clears d v w s s'' := by
  refine ⟨h.toDrops.trans h'.toDrops hvx hxw, h'.tabs.trans h.tabs, fun y hy => ?_⟩
  rw [h'.pte y hy, h.pte y hy, h.entry y hy]
  by_cases h1 : v ≤ y ∧ y < x
  · have hlt : y < w := by omega
    rw [if_neg (by omega)]
    simp only [h1.1, h1.2, hlt, true_and]
  · rw [if_neg h1]
    by_cases h2 : x ≤ y ∧ y < w ∧ (Vm.entry s.mem d y).isSome
    · rw [if_pos h2, if_pos ⟨by omega, h2.2⟩]
    · rw [if_neg h2, if_neg fun hin => h1 ⟨hin.1, hin.2.1⟩, if_neg fun hin => h2 ⟨by omega, hin.2⟩]

theorem extend (h : Clears d x w s s')
    (hnone : ∀ y < NPAGES, v ≤ y → y < x → Vm.entry s.mem d y = none) (hvx : v ≤ x) :
    Clears d v w s s' := by
  refine ⟨h.toDrops.extend hnone hvx, h.tabs, fun y hy => ?_⟩
  rw [h.pte y hy]
  by_cases h1 : v ≤ y ∧ y < x
  · rw [if_neg (by omega), hnone y hy h1.1 h1.2, if_neg fun hin => nomatch hin.2.2]
  · have hiff : x ≤ y ∧ y < w ∧ (Vm.entry s.mem d y).isSome = true ↔
        v ≤ y ∧ y < w ∧ (Vm.entry s.mem d y).isSome = true :=
      ⟨fun hin => ⟨by omega, hin.2⟩, fun hin => ⟨by omega, hin.2⟩⟩
    rw [if_congr hiff rfl rfl]

end Clears

theorem tables_nodup (h : Own L s (vm s.mem d)) : (tables s.mem d).Nodup :=
  (Multiset.nodup_add.mp h.nodup_owned).1

/-- A user page is none of the page tables. -/
theorem page_ne_table {e : BitVec 32} {v : ℕ} (h : Own L s (vm s.mem d)) (hv : v < NUSER)
    (he : entry s.mem d v = some e) : PTE_ADDR e ∉ tables s.mem d := fun ht =>
  Multiset.disjoint_left.mp (Multiset.nodup_add.mp h.nodup_owned).2.2 ht (entry_mem_pages hv he)

theorem page_inj {e e' : BitVec 32} {v w : ℕ} (h : Own L s (vm s.mem d)) (hv : v < NUSER)
    (hw : w < NUSER) (he : entry s.mem d v = some e) (he' : entry s.mem d w = some e')
    (haddr : PTE_ADDR e = PTE_ADDR e') : v = w := by
  have hn : (pages s.mem d).Nodup := (Multiset.nodup_add.mp h.nodup_owned).2.1
  refine collect_inj hn hv hw (a := PTE_ADDR e) ?_ ?_
  · rw [he, Option.map_some]
  · rw [he', Option.map_some, haddr]

/-- Freeing the user page `v` whose entry is `e`, in page table `t`. -/
theorem drops_page {e : BitVec 32} {v : ℕ} (h : Own L s (vm s.mem d)) (hv : v < NUSER)
    (ht : tab s.mem d (v / 1024) = some t) (he : entry s.mem d v = some e) :
    Clears d v (v + 1) s
      { s with
        mem := setEntry (update s.mem (PTE_ADDR e) fun _ => 1) t (v % 1024) 0
        freelist := PTE_ADDR e :: s.freelist } := by
  set mem := update s.mem (PTE_ADDR e) fun _ => 1 with hmem
  have hpage := page_ne_table h hv he
  have hlt := div_lt_of_page (user_lt hv)
  -- the page tables are not touched by the store into the freed page
  have hsame : ∀ f ∈ tables s.mem d, mem f = s.mem f := fun f hf => by
    have hne : f ≠ PTE_ADDR e := fun e' => hpage (e' ▸ hf)
    rw [hmem, update_of_ne hne]
  have htables := tables_congr hsame
  have hn : (tables mem d).Nodup := htables ▸ tables_nodup h
  have ht' : tab mem d (v / 1024) = some t := by rw [tab_congr hsame, ht]
  have hentry : ∀ x < NPAGES, entry (setEntry mem t (v % 1024) 0) d x =
      if v ≤ x ∧ x < v + 1 then none else entry s.mem d x := fun x hx => by
    rw [entry_setEntry hn (user_lt hv) ht' hx, entry_congr hsame hx]
    by_cases hxv : x = v
    · rw [if_pos hxv, present_zero, if_neg Bool.false_ne_true, if_pos (by omega)]
    · rw [if_neg hxv, if_neg (by omega)]
  have htabs : tab (setEntry mem t (v % 1024) 0) d = tab s.mem d := by
    rw [tab_setEntry hn hlt ht', tab_congr hsame]
  refine ⟨⟨⟨⟨?_, fun x hx => ?_⟩, fun i hi => .inl (htabs ▸ hi), id⟩, hentry,
    fun x hx hout e' he' => ?_⟩, htabs, fun x hx => ?_⟩
  · have hother : ∀ w < NUSER, w ≠ v →
        entry (setEntry mem t (v % 1024) 0) d w = entry s.mem d w := fun w hw hne => by
      rw [hentry w (user_lt hw), if_neg (by omega)]
    have hpages := pages_add_single hv hother
    rw [hentry v (user_lt hv), if_pos (by omega), he] at hpages
    show ↑(PTE_ADDR e :: s.freelist) + vm (setEntry mem t (v % 1024) 0) d = _
    unfold vm
    rw [tables_setEntry hn hlt ht', htables, ← Multiset.cons_coe, ← Multiset.singleton_add]
    simp only [Option.map_some, Option.map_none, single_some, single_none, add_zero] at hpages
    rw [← hpages]
    abel
  · rw [Multiset.mem_add, not_or] at hx
    have hxt : x ≠ t := by
      rintro rfl
      exact hx.2 (Multiset.mem_add.mpr (.inl (tab_mem_tables hlt ht)))
    have hxp : x ≠ PTE_ADDR e := by
      rintro rfl
      exact hx.2 (Multiset.mem_add.mpr (.inr (entry_mem_pages hv he)))
    exact (setEntry_of_ne hxt).trans (update_of_ne hxp _ _)
  · -- another user page is neither freed nor a page table
    have hxt : PTE_ADDR e' ≠ t := fun e0 => page_ne_table h hx he' (e0 ▸ tab_mem_tables hlt ht)
    have hxp : PTE_ADDR e' ≠ PTE_ADDR e := fun e0 => by
      have := page_inj h hx hv he' he e0
      omega
    exact (setEntry_of_ne hxt).trans (update_of_ne hxp _ _)
  · show pte (setEntry mem t (v % 1024) 0) d x = _
    rw [pte_setEntry hn (user_lt hv) ht' hx, pte_congr hsame hx]
    by_cases hxv : x = v
    · rw [if_pos hxv, if_pos ⟨by omega, by omega, by rw [hxv, he]; rfl⟩]
    · rw [if_neg hxv, if_neg (by omega)]

/-- A round of `deallocuvm` for page `v`: the loop goes on at a page `w`, and between `v` and `w`
nothing is mapped. -/
theorem deallocPage_spec {v : ℕ} (h : Own L s (vm s.mem d)) (hv : v < NUSER) :
    wp E (deallocPage L d (v * 4096)) (fun a s' => ∃ w, (a + PGSIZE) % UINT = w * 4096 ∧
      v < w ∧ w ≤ NUSER ∧ Clears d v (v + 1) s s' ∧
      ∀ x < NPAGES, v < x → x < w → entry s'.mem d x = none) s := by
  have hmul : v * 4096 / 4096 = v := by omega
  have hnext : (v * 4096 + PGSIZE) % UINT = (v + 1) * 4096 := by
    unfold NUSER at hv
    unfold PGSIZE UINT
    omega
  have hPDX : PDX (v * 4096) = v / 1024 := by
    unfold NUSER at hv
    unfold PDX
    omega
  unfold deallocPage
  rw [wp_bind, wp_walkpgdir_false, PTX_eq, hmul, hPDX]
  cases ht : tab s.mem d (v / 1024) with
  | none =>
    -- the whole page table is missing
    have hnone : ∀ x < NPAGES, v ≤ x → x < (v / 1024 + 1) * 1024 → entry s.mem d x = none :=
      fun x _ hvx hx => entry_of_no_tab ((by omega : x / 1024 = v / 1024) ▸ ht)
    refine ⟨(v / 1024 + 1) * 1024, ?_, by omega, ?_,
      .refl fun x hx h1 h2 => hnone x hx h1 (by omega), fun x hx h1 h2 => hnone x hx (by omega) h2⟩
    · unfold NUSER at hv
      unfold PGSIZE UINT
      omega
    · unfold NUSER at hv ⊢
      omega
  | some t =>
    rw [Option.map_some, wp_bind, wp_load]
    by_cases hp : present (readPte (s.mem t) (v % 1024)) = true
    · have he : entry s.mem d v = some (readPte (s.mem t) (v % 1024)) := by
        rw [entry_of_tab ht, if_pos hp]
      generalize readPte (s.mem t) (v % 1024) = e at hp he
      have hmem : PTE_ADDR e ∈ vm s.mem d := Multiset.mem_add.mpr (.inr (entry_mem_pages hv he))
      have hvalid := h.valid_owned hmem
      have hzero : PTE_ADDR e ≠ 0 := fun e0 => L.not_valid_zero (e0 ▸ hvalid)
      dsimp only
      rw [if_pos hp, if_neg hzero, wp_bind]
      refine wp_kfree hvalid (h.not_free hmem) ?_
      exact ⟨v + 1, hnext, by omega, hv, drops_page h hv ht he, fun x _ h1 h2 => by omega⟩
    · have he : entry s.mem d v = none := by rw [entry_of_tab ht, if_neg hp]
      dsimp only
      rw [if_neg hp]
      refine ⟨v + 1, hnext, by omega, hv, .refl fun x _ h1 h2 => ?_, fun x _ h1 h2 => by omega⟩
      rw [(by omega : x = v), he]

theorem deallocLoop_spec {oldsz n v : ℕ} (h : Own L s (vm s.mem d)) (hsz : oldsz ≤ KERNBASE)
    (hn : pgs oldsz ≤ v + n) (hv : v ≤ NUSER) :
    wp E (deallocLoop L d oldsz n (v * 4096)) (fun _ s' => Clears d v (pgs oldsz) s s') s := by
  induction n generalizing v s with
  | zero => exact Clears.refl fun x _ h1 h2 => by omega
  | succ n ih =>
    unfold deallocLoop
    refine wp_ite (fun hlt => ?_) fun hge => ?_
    · have hvp : v < pgs oldsz := by unfold pgs; omega
      rw [wp_bind]
      refine wp_mono (deallocPage_spec h (Nat.lt_of_lt_of_le hvp (pgs_le hsz))) ?_
      rintro a s' ⟨w, ha, hvw, hw, hdrop, hnone⟩
      rw [ha]
      refine wp_mono (ih (h.moves' hdrop.moves) (by omega) hw) fun _ s'' hdrop' => ?_
      exact hdrop.trans (hdrop'.extend (fun y hy h1 h2 => hnone y hy (by omega) h2) (by omega))
        (by omega) hvp
    · exact Clears.refl fun x _ h1 h2 => by unfold pgs at h2; omega

theorem deallocuvm_spec {oldsz newsz : ℕ} (h : Own L s (vm s.mem d)) (hsz : oldsz ≤ KERNBASE) :
    wp E (deallocuvm L d oldsz newsz) (fun r s' =>
      r = min oldsz newsz ∧ Clears d (pgs newsz) (pgs oldsz) s s') s := by
  unfold deallocuvm
  refine wp_ite (fun hle => ?_) fun hgt => ?_
  · exact ⟨by omega, Clears.refl fun x _ h1 h2 => by unfold pgs at h1 h2; omega⟩
  · have hnew : newsz ≤ KERNBASE := by omega
    have hfuel : pgs oldsz ≤ pgs newsz + (oldsz / PGSIZE + 1) := by
      unfold pgs PGSIZE
      omega
    rw [PGROUNDUP_eq hnew]
    rw [wp_bind]
    refine wp_mono (deallocLoop_spec h hsz hfuel (pgs_le hnew)) fun _ s' hdrop => ?_
    exact ⟨by omega, hdrop⟩

/-! ## allocuvm -/

theorem Own.take {fs : List Frame} {pg : Bytes} {fails : List Bool} (hfree : s.freelist = f :: fs) :
    Moves s A { mem := update s.mem f pg, freelist := fs, fails := fails } (A + {f}) := by
  refine ⟨?_, fun x hx => update_of_ne ?_ _ _⟩
  · show ↑fs + (A + {f}) = ↑s.freelist + A
    rw [hfree, ← Multiset.cons_coe, ← Multiset.singleton_add]
    abel
  · rintro rfl
    have hmem : x ∈ s.freelist := hfree ▸ List.mem_cons_self
    exact hx (Multiset.mem_add.mpr (.inl (Multiset.mem_coe.mpr hmem)))

/-- Mapping user page `v` to the page `f` just taken from the free list and filled with `pg`. -/
structure MapsNew (d : Frame) (v : ℕ) (f : Frame) (pg : Bytes) (perm : BitVec 12) (s : Mem)
    (r : Bool) (s' : Mem) : Prop where
  moves : Moves s (vm s.mem d) s' (vm s'.mem d + if r then 0 else {f})
  tab : ∀ i, (tab s'.mem d i).isSome → (tab s.mem d i).isSome ∨ i < 512
  fails : s.fails = [] → s'.fails = []
  entry : ∀ x < NPAGES, entry s'.mem d x =
    if r = true ∧ x = v then some (mkPte f (perm ||| PTE_P)) else entry s.mem d x
  page : s'.mem f = pg
  same : ∀ x < NUSER, ∀ e, Vm.entry s.mem d x = some e → s'.mem (PTE_ADDR e) = s.mem (PTE_ADDR e)
  taken : f ∈ s.freelist
  free : ∀ g ∈ s'.freelist, g ∈ s.freelist
  starved : r = false → s.fails = [] → s'.freelist = []
  length : s.freelist.length ≤ s'.freelist.length + 2

theorem mapsNew_spec {v : ℕ} {fs : List Frame} {pg : Bytes} (perm : BitVec 12)
    (h : Own L s (vm s.mem d)) (hv : v < NUSER) (hnone : entry s.mem d v = none)
    (hfree : s.freelist = f :: fs) :
    wp E (mappages d (v * 4096) PGSIZE f perm) (MapsNew d v f pg perm s)
      { mem := update s.mem f pg, freelist := fs, fails := s.fails.tail } := by
  set s₁ : Mem := { mem := update s.mem f pg, freelist := fs, fails := s.fails.tail }
  have htake : Moves s (vm s.mem d) s₁ (vm s.mem d + {f}) := Own.take hfree
  have hsame : ∀ g ∈ tables s.mem d, s₁.mem g = s.mem g := fun g hg => by
    have hne : g ≠ f := by
      rintro rfl
      exact h.not_free (Multiset.mem_add.mpr (.inl hg)) (hfree ▸ List.mem_cons_self)
    exact update_of_ne hne _ _
  have htables := tables_congr hsame
  have hvm := vm_congr hsame
  have hentry : ∀ x < NPAGES, entry s₁.mem d x = entry s.mem d x := fun x => entry_congr hsame
  have hown : Own L s₁ (tables s₁.mem d) := by
    have := h.moves' htake
    rw [← hvm] at this
    exact this.left.left
  -- neither the new page nor the user pages are touched
  have hnew : f ∉ (↑fs + tables s₁.mem d : Multiset Frame) := by
    have hn := (h.moves' htake).nodup
    rw [← add_assoc, Multiset.nodup_add] at hn
    intro hm
    rw [htables] at hm
    refine Multiset.disjoint_left.mp hn.2.2 ?_ (Multiset.mem_singleton_self f)
    exact (Multiset.mem_add.mp hm).elim (fun hm => Multiset.mem_add.mpr (.inl hm))
      fun hm => Multiset.mem_add.mpr (.inr (Multiset.mem_add.mpr (.inl hm)))
  have hold : ∀ x < NUSER, ∀ e, entry s.mem d x = some e →
      PTE_ADDR e ∉ (↑fs + tables s₁.mem d : Multiset Frame) ∧ PTE_ADDR e ≠ f := by
    intro x hx e he
    have hmem : PTE_ADDR e ∈ vm s.mem d := Multiset.mem_add.mpr (.inr (entry_mem_pages hx he))
    have hnot : PTE_ADDR e ∉ f :: fs := hfree ▸ h.not_free hmem
    rw [List.mem_cons, not_or] at hnot
    rw [htables, Multiset.mem_add, not_or]
    exact ⟨⟨fun hm => hnot.2 (Multiset.mem_coe.mp hm), page_ne_table h hx he⟩, hnot.1⟩
  have hlast : v + 0 < NPAGES := user_lt hv
  refine wp_mono (mappages_spec (P := (· = v / 1024)) (n := 0) f perm hown rfl rfl hlast
    (fun k hk => ?_) fun k hk => ?_) ?_
  · rw [Nat.le_zero.mp hk, Nat.add_zero, hentry v (user_lt hv), hnone]
  · rw [Nat.le_zero.mp hk, Nat.add_zero]
  · rintro r s' ⟨hgrow, hdone, hfailed⟩
    have hset : ∀ x < NPAGES, entry s'.mem d x =
        if r = true ∧ x = v then some (mkPte f (perm ||| PTE_P)) else entry s.mem d x := by
      intro x hx
      cases r with
      | true =>
        rw [hdone rfl x hx, hentry x hx]
        by_cases hxv : x = v
        · rw [if_pos (by omega), if_pos ⟨rfl, hxv⟩, hxv, Nat.sub_self]
          simp
        · rw [if_neg (by omega), if_neg fun h' => hxv h'.2]
      | false =>
        obtain ⟨⟨m, hm, hmap⟩, -⟩ := hfailed rfl
        rw [hmap x hx, if_neg (by omega), if_neg nofun, hentry x hx]
    refine ⟨htake.trans ?_, fun i hi => ?_, fun hf => hgrow.fails (starved_fails hf), hset, ?_,
      fun x hx e he => ?_, hfree ▸ List.mem_cons_self,
      fun g hg => hfree ▸ List.mem_cons_of_mem f (hgrow.free g hg),
      fun hr hf => (hfailed hr).2 (starved_fails hf), ?_⟩
    · -- the new page is a user page now, or still in hand
      have hother : ∀ w < NUSER, w ≠ v → entry s'.mem d w = entry s.mem d w :=
        fun w hw hne => by rw [hset w (user_lt hw), if_neg fun h' => hne h'.2]
      have hpages := pages_add_single hv hother
      rw [hset v (user_lt hv), hnone, Option.map_none, single_none, add_zero] at hpages
      have hvm' : vm s'.mem d + (if r then 0 else {f}) = tables s'.mem d + (pages s.mem d + {f}) := by
        unfold vm
        rw [hpages]
        cases r with
        | true => simp
        | false => simp [add_assoc]
      rw [hvm', vm, ← htables, add_assoc]
      exact hgrow.moves.add
    · refine (hgrow.tab i hi).imp (fun h' => ?_) fun h' => ?_
      · rwa [← tab_congr hsame]
      · subst h'
        unfold NUSER at hv
        omega
    · rw [hgrow.moves.frame f hnew]
      exact update_self ..
    · obtain ⟨hout, hne⟩ := hold x hx e he
      rw [hgrow.moves.frame _ hout]
      exact update_of_ne hne _ _
    · have hle := hgrow.length_le (S := {v / 1024}) fun i hi => Finset.mem_singleton.mpr hi
      have hlen : s.freelist.length = s₁.freelist.length + 1 := by rw [hfree]; rfl
      rw [Finset.card_singleton] at hle
      omega

/-- The user pages from `v` to `w` are new, zeroed and taken from the free list, and all other pages
are as they were. -/
structure Adds (d : Frame) (v w : ℕ) (s s' : Mem) : Prop extends Changes d s s' where
  new : ∀ x < NPAGES, v ≤ x → x < w →
    ∃ f, entry s'.mem d x = some (mkPte f (PTE_W ||| PTE_U ||| PTE_P))
  old : ∀ x < NPAGES, ¬ (v ≤ x ∧ x < w) → entry s'.mem d x = entry s.mem d x
  fresh : ∀ x < NUSER, v ≤ x → x < w → ∀ e, entry s'.mem d x = some e →
    PTE_ADDR e ∈ s.freelist ∧ s'.mem (PTE_ADDR e) = fun _ => 0
  same : ∀ x < NUSER, ¬ (v ≤ x ∧ x < w) → ∀ e, entry s.mem d x = some e →
    s'.mem (PTE_ADDR e) = s.mem (PTE_ADDR e)
  free : ∀ f ∈ s'.freelist, f ∈ s.freelist

namespace Adds

variable {v x w : ℕ}

theorem refl (hwv : w ≤ v) : Adds d v w s s :=
  ⟨.refl, fun x _ h1 h2 => by omega, fun _ _ _ => rfl, fun x _ h1 h2 => by omega,
    fun _ _ _ _ _ => rfl, fun _ hf => hf⟩

theorem trans (h : Adds d v x s s') (h' : Adds d x w s' s'') (hvx : v ≤ x)
    (hxw : x ≤ w) : Adds d v w s s'' where
  toChanges := h.toChanges.trans h'.toChanges
  new y hy h1 h2 := by
    by_cases hyx : x ≤ y
    · exact h'.new y hy hyx h2
    · obtain ⟨f, hf⟩ := h.new y hy h1 (by omega)
      exact ⟨f, (h'.old y hy (by omega)).trans hf⟩
  old y hy hout := (h'.old y hy (by omega)).trans (h.old y hy (by omega))
  fresh y hy h1 h2 e he := by
    by_cases hyx : x ≤ y
    · obtain ⟨hfree, hzero⟩ := h'.fresh y hy hyx h2 e he
      exact ⟨h.free _ hfree, hzero⟩
    · rw [h'.old y (user_lt hy) (by omega)] at he
      obtain ⟨hfree, hzero⟩ := h.fresh y hy h1 (by omega) e he
      exact ⟨hfree, (h'.same y hy (by omega) e he).trans hzero⟩
  same y hy hout e he := by
    have he' : entry s'.mem d y = some e := by rw [h.old y (user_lt hy) (by omega), he]
    rw [h'.same y hy (by omega) e he', h.same y hy (by omega) e he]
  free f hf := h.free f (h'.free f hf)

theorem view (h : Adds d v w s s') (hx : x < NUSER) :
    Vm.view s'.mem d x =
      if v ≤ x ∧ x < w then some ⟨PTE_W ||| PTE_U ||| PTE_P, fun _ => 0⟩ else Vm.view s.mem d x := by
  by_cases hin : v ≤ x ∧ x < w
  · obtain ⟨f, hf⟩ := h.new x (user_lt hx) hin.1 hin.2
    rw [if_pos hin, view_of_entry hf, (h.fresh x hx hin.1 hin.2 _ hf).2, PTE_FLAGS_mkPte]
  · rw [if_neg hin]
    exact view_congr (h.old x (user_lt hx) hin) (h.same x hx hin)

end Adds

theorem MapsNew.adds {v : ℕ} (h : MapsNew d v f (fun _ => 0) (PTE_W ||| PTE_U) s true s') :
    Adds d v (v + 1) s s' where
  moves := by simpa using h.moves
  tab := h.tab
  fails := h.fails
  new x hx h1 h2 := ⟨f, by rw [h.entry x hx, if_pos ⟨rfl, by omega⟩]⟩
  old x hx hout := by rw [h.entry x hx, if_neg (by omega)]
  fresh x hx h1 h2 e he := by
    rw [h.entry x (user_lt hx), if_pos ⟨rfl, by omega⟩] at he
    cases he
    rw [PTE_ADDR_mkPte]
    exact ⟨h.taken, h.page⟩
  same x hx _ := h.same x hx
  free := h.free

theorem Own.give {pg : Bytes} :
    Moves s (A + {f}) { s with mem := update s.mem f pg, freelist := f :: s.freelist } A := by
  refine ⟨?_, fun x hx => update_of_ne ?_ _ _⟩
  · show ↑(f :: s.freelist) + A = ↑s.freelist + (A + {f})
    rw [← Multiset.cons_coe, ← Multiset.singleton_add]
    abel
  · rintro rfl
    exact hx (by simp)

/-- What `allocuvm` does: it adds the pages from `v` to `w`, or it leaves no page above `oldsz`;
the latter, when `kalloc` is not made to fail, only because it has run out of pages. -/
def Allocs (d : Frame) (v w oldsz newsz : ℕ) (s : Mem) (r : ℕ) (s' : Mem) : Prop :=
  r = newsz ∧ Adds d v w s s' ∨
  r = 0 ∧ Drops d (pgs oldsz) (pgs newsz) s s' ∧
    (s.fails = [] → s.freelist.length ≤ 2 * (w - v))

theorem giveBack_spec (h : Own L s (vm s.mem d + {f})) :
    wp E (kfree L f) (fun _ s' => Moves s (vm s.mem d + {f}) s' (vm s'.mem d) ∧
      tab s'.mem d = tab s.mem d ∧ (∀ x < NPAGES, entry s'.mem d x = entry s.mem d x) ∧
      (∀ g ∈ vm s.mem d, s'.mem g = s.mem g) ∧ s'.fails = s.fails) s := by
  have hf : f ∈ vm s.mem d + {f} := Multiset.mem_add.mpr (.inr (Multiset.mem_singleton_self f))
  have hpages : ∀ g ∈ vm s.mem d, update s.mem f (fun _ => 1) g = s.mem g := by
    intro g hg
    have hne : g ≠ f := by
      rintro rfl
      exact Multiset.disjoint_left.mp (Multiset.nodup_add.mp h.nodup_owned).2.2 hg
        (Multiset.mem_singleton_self g)
    exact update_of_ne hne _ _
  have hsame : ∀ g ∈ tables s.mem d, update s.mem f (fun _ => 1) g = s.mem g :=
    fun g hg => hpages g (Multiset.mem_add.mpr (.inl hg))
  refine wp_kfree (h.valid_owned hf) (h.not_free hf) ?_
  refine ⟨?_, tab_congr hsame, fun x hx => entry_congr hsame hx, hpages, rfl⟩
  show Lib.Moves _ _ _ _ (vm (update s.mem f fun _ => 1) d) _
  rw [vm_congr hsame]
  exact Own.give

/-- `allocuvm` frees what it has allocated, and the page `f` it could not map. -/
theorem undo_spec {oldsz newsz v : ℕ} {perm : BitVec 12} (h : Own L s (vm s.mem d))
    (hsz : newsz ≤ KERNBASE) {pg : Bytes} (hmap : MapsNew d v f pg perm s false s') :
    wp E (do let _ ← deallocuvm L d newsz oldsz; kfree L f; return 0) (fun r s'' =>
      r = 0 ∧ Drops d (pgs oldsz) (pgs newsz) s s'') s' := by
  have hown : Own L s' (vm s'.mem d + {f}) := h.moves' hmap.moves
  have hkept : ∀ x < NPAGES, entry s'.mem d x = entry s.mem d x := fun x hx =>
    (hmap.entry x hx).trans (if_neg fun h' => nomatch h'.1)
  rw [wp_bind]
  refine wp_mono (deallocuvm_spec hown.left hsz) ?_
  rintro _ s₁ ⟨-, hdrop⟩
  rw [wp_bind]
  refine wp_mono (giveBack_spec (hown.moves hdrop.moves)) ?_
  rintro _ s₂ ⟨hgive, htab, hentry, hkeep, hfails⟩
  refine ⟨rfl, ⟨hmap.moves.trans (hdrop.moves.add.trans hgive), fun i hi => ?_, fun hf => ?_⟩,
    fun x hx => ?_, fun x hx hout e he => ?_⟩
  · rw [htab] at hi
    exact (hdrop.tab i hi).elim (hmap.tab i) .inr
  · exact hfails.trans (hdrop.fails (hmap.fails hf))
  · rw [hentry x hx, hdrop.entry x hx, hkept x hx]
  · have he₁ : entry s₁.mem d x = some e := by
      rw [hdrop.entry x (user_lt hx), if_neg hout, hkept x (user_lt hx), he]
    rw [hkeep _ (Multiset.mem_add.mpr (.inr (entry_mem_pages hx he₁))),
      hdrop.same x hx hout e ((hkept x (user_lt hx)).trans he), hmap.same x hx e he]

theorem allocLoop_spec {oldsz newsz n v : ℕ} (h : Own L s (vm s.mem d)) (hsz : newsz < KERNBASE)
    (hn : pgs newsz ≤ v + n) (hv : pgs oldsz ≤ v)
    (hnone : ∀ x, v ≤ x → x < pgs newsz → entry s.mem d x = none) :
    wp E (allocLoop L d oldsz newsz n (v * 4096)) (Allocs d v (pgs newsz) oldsz newsz s) s := by
  induction n generalizing v s with
  | zero =>
    exact .inl ⟨by omega, .refl (by omega)⟩
  | succ n ih =>
    unfold allocLoop
    refine wp_ite (fun hlt => ?_) fun hge => ?_
    · have hvp : v < pgs newsz := by unfold pgs; omega
      have huser : v < NUSER := Nat.lt_of_lt_of_le hvp (pgs_le (Nat.le_of_lt hsz))
      rw [wp_bind]
      refine wp_kalloc (fun f fs hfree => ?_) fun hstarved => ?_
      · dsimp only
        rw [wp_bind, wp_memset, wp_bind]
        refine wp_mono (mapsNew_spec _ h huser (hnone v (Nat.le_refl v) hvp) hfree) ?_
        intro r s' hmap
        have hlen := hmap.length
        cases r with
        | true =>
          have hadds := hmap.adds
          have hnext : v * 4096 + PGSIZE = (v + 1) * 4096 := by unfold PGSIZE; omega
          rw [if_pos rfl, hnext]
          refine wp_mono (ih (h.moves' hadds.moves) (by omega) (by omega) fun x h1 h2 => ?_) ?_
          · rw [hmap.entry x (user_lt (Nat.lt_of_lt_of_le h2 (pgs_le (Nat.le_of_lt hsz)))),
              if_neg (by omega), hnone x (by omega) h2]
          · rintro r s'' (⟨hr, hadds'⟩ | ⟨hr, hdrop, hst⟩)
            · exact .inl ⟨hr, hadds.trans hadds' (by omega) hvp⟩
            · refine .inr ⟨hr, ⟨hadds.toChanges.trans hdrop.toChanges, fun x hx => ?_,
                fun x hx hout e he => ?_⟩, fun hf => ?_⟩
              · rw [hdrop.entry x hx]
                by_cases hin : pgs oldsz ≤ x ∧ x < pgs newsz
                · rw [if_pos hin, if_pos hin]
                · rw [if_neg hin, if_neg hin, hadds.old x hx (by omega)]
              · have he' : entry s'.mem d x = some e := by
                  rw [hadds.old x (user_lt hx) (by omega), he]
                rw [hdrop.same x hx hout e he', hadds.same x hx (by omega) e he]
              · have := hst (hmap.fails hf)
                omega
        | false =>
          refine wp_mono (undo_spec h (Nat.le_of_lt hsz) hmap) ?_
          rintro r s'' ⟨hr, hdrop⟩
          refine .inr ⟨hr, hdrop, fun hf => ?_⟩
          rw [hmap.starved rfl hf, List.length_nil] at hlen
          omega
      · dsimp only
        rw [wp_bind]
        have hown : Own L { s with fails := s.fails.tail } (vm s.mem d) := ⟨h.nodup, h.valid⟩
        refine wp_mono (deallocuvm_spec hown (Nat.le_of_lt hsz)) ?_
        rintro _ s'' ⟨-, hdrop⟩
        refine .inr ⟨rfl, ⟨⟨hdrop.moves, hdrop.tab, fun hf => hdrop.fails (starved_fails hf)⟩,
          hdrop.entry, hdrop.same⟩, fun hf => ?_⟩
        rw [hstarved hf, List.length_nil]
        exact Nat.zero_le _
    · refine .inl ⟨rfl, .refl ?_⟩
      unfold pgs
      omega

/-- The present user pages lie below `sz`. -/
def Below (mem : Frame → Bytes) (d : Frame) (sz : ℕ) : Prop :=
  ∀ x < NUSER, pgs sz ≤ x → entry mem d x = none

/-- All entries are as they were. -/
structure Keeps (d : Frame) (s s' : Mem) : Prop extends Changes d s s' where
  entry : ∀ x < NPAGES, Vm.entry s'.mem d x = Vm.entry s.mem d x

/-- All user pages are as they were. -/
structure Undoes (d : Frame) (s s' : Mem) : Prop extends Keeps d s s' where
  same : ∀ x < NUSER, ∀ e, Vm.entry s.mem d x = some e → s'.mem (PTE_ADDR e) = s.mem (PTE_ADDR e)

/-- `allocuvm` on an address space of size `oldsz`. -/
theorem allocuvm_spec {oldsz newsz : ℕ} (h : Own L s (vm s.mem d)) (hold : oldsz ≤ KERNBASE)
    (hbelow : Below s.mem d oldsz) :
    wp E (allocuvm L d oldsz newsz) (fun r s' =>
      newsz < KERNBASE ∧ r = max oldsz newsz ∧ Adds d (pgs oldsz) (pgs newsz) s s' ∨
      r = 0 ∧ Undoes d s s' ∧ (newsz < KERNBASE → s.fails = [] →
        s.freelist.length ≤ 2 * (pgs newsz - pgs oldsz))) s := by
  unfold allocuvm
  refine wp_ite (fun hbig => ?_) fun hsmall => ?_
  · exact .inr ⟨rfl, ⟨⟨.refl, fun _ _ => rfl⟩, fun _ _ _ _ => rfl⟩, fun hlt => by omega⟩
  · refine wp_ite (fun hlt => ?_) fun hge => ?_
    · refine .inl ⟨by omega, by omega, .refl ?_⟩
      unfold pgs
      omega
    · have hnew : newsz < KERNBASE := by omega
      have huser : ∀ x < pgs newsz, x < NUSER := fun x hx =>
        Nat.lt_of_lt_of_le hx (pgs_le (Nat.le_of_lt hnew))
      have hfuel : pgs newsz ≤ pgs oldsz + (newsz / PGSIZE + 1) := by
        unfold pgs PGSIZE
        omega
      rw [PGROUNDUP_eq hold]
      refine wp_mono (allocLoop_spec h hnew hfuel (Nat.le_refl _)
        fun x h1 h2 => hbelow x (huser x h2) h1) ?_
      rintro r s' (⟨hr, hadds⟩ | ⟨hr, hdrop, hst⟩)
      · exact .inl ⟨hnew, by omega, hadds⟩
      · refine .inr ⟨hr, ⟨⟨hdrop.toChanges, fun x hx => ?_⟩, fun x hx e he => ?_⟩, fun _ => hst⟩
        · rw [hdrop.entry x hx]
          by_cases hin : pgs oldsz ≤ x ∧ x < pgs newsz
          · rw [if_pos hin, hbelow x (huser x hin.2) hin.1]
          · rw [if_neg hin]
        · refine hdrop.same x hx (fun hin => ?_) e he
          rw [hbelow x hx hin.1] at he
          cases he

/-! ## freevm -/

theorem freeTables_spec {n i : ℕ}
    (h : Own L s ({d} + collect n fun j => tab s.mem d (i + j))) :
    wp E (freeTables L d n i) (fun _ s' =>
      Moves s ({d} + collect n fun j => tab s.mem d (i + j)) s' {d} ∧ s'.fails = s.fails) s := by
  induction n generalizing i s with
  | zero =>
    refine ⟨?_, rfl⟩
    rw [collect_none fun j hj => by omega, add_zero]
    exact Lib.Moves.refl
  | succ n ih =>
    have hcollect : collect (n + 1) (fun j => tab s.mem d (i + j)) =
        single (tab s.mem d i) + collect n fun j => tab s.mem d (i + 1 + j) := by
      rw [collect_succ]
      simp only [Nat.add_zero, Nat.add_comm, Nat.add_left_comm]
    rw [hcollect] at h ⊢
    unfold freeTables
    rw [wp_bind, wp_load]
    by_cases hp : present (readPte (s.mem d) i) = true
    · have htab : tab s.mem d i = some (PTE_ADDR (readPte (s.mem d) i)) := if_pos hp
      dsimp only
      rw [if_pos hp, wp_bind]
      generalize PTE_ADDR (readPte (s.mem d) i) = t at htab
      rw [htab, single_some] at h ⊢
      set rest := collect n fun j => tab s.mem d (i + 1 + j) with hrest
      have hperm : ({d} + ({t} + rest) : Multiset Frame) = {d} + rest + {t} := by abel
      rw [hperm] at h ⊢
      have ht : t ∈ {d} + rest + {t} := Multiset.mem_add.mpr (.inr (Multiset.mem_singleton_self t))
      have hdt : d ≠ t := by
        rintro rfl
        exact Multiset.disjoint_left.mp (Multiset.nodup_add.mp h.nodup_owned).2.2
          (Multiset.mem_add.mpr (.inl (Multiset.mem_singleton_self d)))
          (Multiset.mem_singleton_self d)
      refine wp_kfree (h.valid_owned ht) (h.not_free ht) ?_
      -- the directory itself is still intact
      set s₁ : Mem := { s with
        mem := update s.mem t (fun _ => 1), freelist := t :: s.freelist }
      have hgive : Moves s ({d} + rest + {t}) s₁ ({d} + rest) := Own.give
      have htab₁ : tab s₁.mem d = tab s.mem d := tab_of_dir (update_of_ne hdt _ _)
      have hown₁ := h.moves' hgive
      rw [hrest, ← htab₁] at hown₁
      refine wp_mono (ih hown₁) fun _ s' hs' => ?_
      rw [htab₁, ← hrest] at hs'
      exact ⟨hgive.trans hs'.1, hs'.2⟩
    · have htab : tab s.mem d i = none := if_neg hp
      dsimp only
      rw [htab, single_none, zero_add] at h ⊢
      rw [if_neg hp]
      exact ih h

/-- `freevm` gives back all that the address space owns. -/
theorem freevm_spec (h : Own L s (vm s.mem d)) :
    wp E (freevm L (some d)) (fun _ s' =>
      Moves s (vm s.mem d) s' 0 ∧ (s.fails = [] → s'.fails = [])) s := by
  unfold freevm
  rw [wp_bind]
  refine wp_mono (deallocuvm_spec h (Nat.le_refl _)) ?_
  rintro _ s₁ ⟨-, hdrop⟩
  -- no user page is left
  have hpages : pages s₁.mem d = 0 := collect_none fun x hx => by
    rw [hdrop.entry x (user_lt hx), if_pos]
    · rfl
    · unfold NUSER at hx
      unfold pgs KERNBASE
      omega
  have hvm : vm s₁.mem d = {d} + collect NPDENTRIES fun j => tab s₁.mem d (0 + j) := by
    unfold vm tables
    rw [hpages, add_zero]
    simp only [Nat.zero_add]
  have hmove := hdrop.moves
  rw [hvm] at hmove
  rw [wp_bind]
  refine wp_mono (freeTables_spec (h.moves' hmove)) ?_
  rintro _ s₂ ⟨hmove', hfails⟩
  have hown₂ := (h.moves' hmove).moves' hmove'
  have hd : d ∈ ({d} : Multiset Frame) := Multiset.mem_singleton_self d
  refine wp_kfree (hown₂.valid_owned hd) (hown₂.not_free hd) ?_
  have hgive : Moves s₂ (0 + {d}) { s₂ with
      mem := update s₂.mem d (fun _ => 1), freelist := d :: s₂.freelist } 0 := Own.give
  rw [zero_add] at hgive
  exact ⟨hmove.trans (hmove'.trans hgive), fun hf => hfails.trans (hdrop.fails hf)⟩

end DuckoUnix.Vm
