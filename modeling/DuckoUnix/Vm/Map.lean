import DuckoUnix.Vm.Table

/-!
# Mapping pages

The specifications of `kalloc`, `kfree`, `walkpgdir` and `mappages`. Pages come from the free list
and go to the page tables of the directory; `mappages` sets the entries of a run of pages, or of
the first few of them when there is no page left for a page table.
-/

namespace DuckoUnix.Vm

open Lib

variable {L : Layout} {E : Fault → Prop} {s s' s'' : Mem} {A A' X : Multiset Frame}
  {d t f : Frame} {P : ℕ → Prop}

/-! ## Ownership -/

/-- The owned pages `A` become `A'`. -/
def Moves (s : Mem) (A : Multiset Frame) (s' : Mem) (A' : Multiset Frame) : Prop :=
  Lib.Moves ↑s.freelist A s.mem ↑s'.freelist A' s'.mem

/-- Every page of the allocator is free or in `A`, once. -/
structure Own (L : Layout) (s : Mem) (A : Multiset Frame) : Prop where
  nodup : (↑s.freelist + A).Nodup
  valid : ∀ f ∈ ↑s.freelist + A, L.Valid f

namespace Own

theorem moves (h : Own L s (A + X)) (hm : Moves s A s' A') : Own L s' (A' + X) := by
  have htotal : (↑s'.freelist + (A' + X) : Multiset Frame) = ↑s.freelist + (A + X) := by
    rw [← add_assoc, hm.total, add_assoc]
  exact ⟨htotal ▸ h.nodup, htotal ▸ h.valid⟩

theorem moves' (h : Own L s A) (hm : Moves s A s' A') : Own L s' A' :=
  ⟨hm.total ▸ h.nodup, hm.total ▸ h.valid⟩

theorem left (h : Own L s (A + X)) : Own L s A := by
  have hle : (↑s.freelist + A : Multiset Frame) ≤ ↑s.freelist + (A + X) :=
    add_le_add_right (Multiset.le_add_right A X) _
  exact ⟨Multiset.nodup_of_le hle h.nodup, fun f hf => h.valid f (Multiset.mem_of_le hle hf)⟩

theorem same (h : Own L s (A + X)) (hm : Moves s A s' A') (hf : f ∈ X) : s'.mem f = s.mem f :=
  Lib.Moves.same hm (by rw [add_assoc]; exact h.nodup) hf

theorem nodup_owned (h : Own L s A) : A.Nodup := (Multiset.nodup_add.mp h.nodup).2.1

theorem not_free (h : Own L s A) (hf : f ∈ A) : f ∉ s.freelist := fun hm =>
  Multiset.disjoint_left.mp (Multiset.nodup_add.mp h.nodup).2.2 (Multiset.mem_coe.mpr hm) hf

theorem valid_owned (h : Own L s A) (hf : f ∈ A) : L.Valid f :=
  h.valid f (Multiset.mem_add.mpr (.inr hf))

end Own

/-! ## Primitives -/

@[simp] theorem wp_load {i : ℕ} {Q : BitVec 32 → Mem → Prop} :
    wp E (load f i) Q s ↔ Q (readPte (s.mem f) i) s := Iff.rfl

@[simp] theorem wp_store {i : ℕ} {e : BitVec 32} {Q : Unit → Mem → Prop} :
    wp E (store f i e) Q s ↔ Q () { s with mem := setEntry s.mem f i e } := Iff.rfl

@[simp] theorem wp_memset {c : BitVec 8} {Q : Unit → Mem → Prop} :
    wp E (memset f c) Q s ↔ Q () { s with mem := Function.update s.mem f fun _ => c } := Iff.rfl

/-- `kalloc` takes the first page, or it fails; it does so of itself only when there is none. -/
theorem wp_kalloc {Q : Option Frame → Mem → Prop}
    (hsome : ∀ f fs, s.freelist = f :: fs →
      Q (some f) { s with freelist := fs, fails := s.fails.tail })
    (hnone : (s.fails = [] → s.freelist = []) → Q none { s with fails := s.fails.tail }) :
    wp E kalloc Q s := by
  unfold kalloc
  rw [wp_bind, wp_get]
  cases hfail : s.fails.headD false with
  | true => exact hnone fun h => by rw [h] at hfail; cases hfail
  | false =>
    cases hfree : s.freelist with
    | nil =>
      have hQ := hnone fun _ => hfree
      rw [hfree] at hQ
      exact hQ
    | cons f fs => exact hsome f fs hfree

theorem wp_kfree {Q : Unit → Mem → Prop} (hv : L.Valid f) (hf : f ∉ s.freelist)
    (h : Q () { s with
      mem := Function.update s.mem f (fun _ => 1), freelist := f :: s.freelist }) :
    wp E (kfree L f) Q s := by
  unfold kfree
  rw [if_neg (not_not.mpr hv), wp_bind, wp_get]
  dsimp only
  rw [if_neg hf]
  exact h

/-! ## walkpgdir -/

theorem PDX_eq {a : ℕ} (h : a < UINT) : PDX a = a / 4096 / 1024 := by
  unfold UINT at h
  unfold PDX
  omega

theorem page_addr_lt {x : ℕ} (h : x < NPAGES) : x * 4096 < UINT := by
  unfold NPAGES at h
  unfold UINT
  omega

theorem PTX_eq (a : ℕ) : PTX a = a / 4096 % 1024 := rfl

theorem PDX_lt (a : ℕ) : PDX a < NPDENTRIES := Nat.mod_lt _ (by decide)

/-- Without `alloc`, the page table is only looked up. -/
theorem wp_walkpgdir_false {va : ℕ} {Q : Option (Frame × ℕ) → Mem → Prop} :
    wp E (walkpgdir d va false) Q s ↔ Q ((tab s.mem d (PDX va)).map (·, PTX va)) s := by
  unfold walkpgdir tab
  rw [wp_bind, wp_load]
  by_cases h : present (readPte (s.mem d) (PDX va)) = true
  · rw [if_pos h, if_pos h]
    exact Iff.rfl
  · rw [if_neg h, if_neg h]
    exact Iff.rfl

/-- Page tables are added to directory `d`, for directory entries in `P` only. -/
structure Grows (d : Frame) (P : ℕ → Prop) (s s' : Mem) : Prop where
  moves : Moves s (tables s.mem d) s' (tables s'.mem d)
  tab : ∀ i, (tab s'.mem d i).isSome → (tab s.mem d i).isSome ∨ P i
  fails : s.fails = [] → s'.fails = []
  free : ∀ f ∈ s'.freelist, f ∈ s.freelist
  pde : ∀ i, readPte (s'.mem d) i = readPte (s.mem d) i ∨ present (readPte (s.mem d) i) = false ∧
    ∃ t, readPte (s'.mem d) i = mkPte t (PTE_P ||| PTE_W ||| PTE_U)

namespace Grows

theorem refl : Grows d P s s :=
  ⟨Lib.Moves.refl, fun _ => .inl, id, fun _ hf => hf, fun _ => .inl rfl⟩

theorem mono {P' : ℕ → Prop} (h : Grows d P s s') (hP : ∀ i, P i → P' i) : Grows d P' s s' where
  moves := h.moves
  tab i hi := (h.tab i hi).imp id (hP i)
  fails := h.fails
  free := h.free
  pde := h.pde

theorem trans (h : Grows d P s s') (h' : Grows d P s' s'') : Grows d P s s'' where
  moves := h.moves.trans h'.moves
  tab i hi := (h'.tab i hi).elim (h.tab i) .inr
  fails hf := h'.fails (h.fails hf)
  free f hf := h.free f (h'.free f hf)
  pde i := by
    rcases h.pde i with e | ⟨habsent, t, e⟩
    · rcases h'.pde i with e' | ⟨habsent', ht⟩
      · exact .inl (e'.trans e)
      · exact .inr ⟨e ▸ habsent', ht⟩
    · rcases h'.pde i with e' | ⟨habsent', ht⟩
      · exact .inr ⟨habsent, t, e'.trans e⟩
      · exact .inr ⟨habsent, ht⟩

theorem length_le {S : Finset ℕ} (h : Grows d P s s') (hS : ∀ i, P i → i ∈ S) :
    s.freelist.length ≤ s'.freelist.length + S.card := by
  have hcard := congrArg Multiset.card h.moves.total
  unfold tables at hcard
  rw [Multiset.card_add, Multiset.card_add, Multiset.card_add, Multiset.card_add,
    Multiset.card_singleton, Multiset.coe_card, Multiset.coe_card] at hcard
  have hle := card_collect_le (n := NPDENTRIES) fun i hi => (h.tab i hi).imp id (hS i)
  omega

end Grows

theorem starved_fails (h : s.fails = []) : s.fails.tail = [] := by rw [h]; rfl

theorem walkpgdir_spec (va : ℕ) (h : Own L s (tables s.mem d)) :
    wp E (walkpgdir d va true) (fun r s' =>
      Grows d (· = PDX va) s s' ∧ (∀ v < NPAGES, entry s'.mem d v = entry s.mem d v) ∧
      match r with
      | some (t, i) => i = PTX va ∧ tab s'.mem d (PDX va) = some t
      | none => s.fails = [] → s'.freelist = []) s := by
  unfold walkpgdir
  rw [wp_bind, wp_load]
  by_cases hp : present (readPte (s.mem d) (PDX va)) = true
  · rw [if_pos hp]
    exact ⟨.refl, fun _ _ => rfl, rfl, if_pos hp⟩
  · have htab : tab s.mem d (PDX va) = none := if_neg hp
    rw [if_neg hp, if_pos rfl, wp_bind]
    refine wp_kalloc (fun t fs hfree => ?_) fun hnone => ?_
    · have ht : t ∉ tables s.mem d := fun hm => h.not_free hm (hfree ▸ List.mem_cons_self)
      have hne : t ≠ d := fun e => ht (e ▸ self_mem_tables)
      have hgrow : tables (addTable s.mem d t (PDX va)) d = tables s.mem d + {t} :=
        tables_addTable hne (PDX_lt va) htab
      refine ⟨⟨⟨?_, fun x hx => ?_⟩, fun i hi => ?_, starved_fails,
        fun f hf => hfree ▸ List.mem_cons_of_mem t hf, fun i => ?_⟩,
        fun v hv => entry_addTable h.nodup_owned ht htab hv, rfl, ?_⟩
      · show ↑fs + tables (addTable s.mem d t (PDX va)) d = _
        rw [hgrow, hfree, ← Multiset.cons_coe, ← Multiset.singleton_add]
        abel
      · rw [Multiset.mem_add, not_or, hfree] at hx
        exact addTable_of_ne (fun e => hx.2 (e ▸ self_mem_tables))
          fun e => hx.1 (e ▸ Multiset.mem_coe.mpr List.mem_cons_self)
      · by_cases hi' : i = PDX va
        · exact .inr hi'
        · refine .inl ?_
          have hsame : tab (addTable s.mem d t (PDX va)) d i = tab s.mem d i :=
            (tab_addTable hne i).trans (if_neg hi')
          exact hsame ▸ hi
      · show readPte (addTable s.mem d t (PDX va) d) i = _ ∨ _ ∧
          ∃ t', readPte (addTable s.mem d t (PDX va) d) i = _
        rw [addTable_self hne]
        by_cases hi : i = PDX va
        · rw [hi, readPte_writePte]
          exact .inr ⟨Bool.eq_false_iff.mpr hp, t, rfl⟩
        · exact .inl (readPte_writePte_of_ne hi)
      · exact (tab_addTable hne _).trans (if_pos rfl)
    · exact ⟨⟨Lib.Moves.refl, fun _ => .inl, starved_fails, fun _ hf => hf, fun _ => .inl rfl⟩,
        fun _ _ => rfl, hnone⟩

/-! ## mappages -/

/-- The entries of the `m` pages from `v` on are set to map to the frames from `pa` on. -/
def Mapped (d : Frame) (v m : ℕ) (pa : Frame) (perm : BitVec 12) (s s' : Mem) : Prop :=
  ∀ w < NPAGES, entry s'.mem d w =
    if v ≤ w ∧ w < v + m then some (mkPte (pa + BitVec.ofNat 20 (w - v)) (perm ||| PTE_P))
    else entry s.mem d w

theorem Mapped.zero {v : ℕ} {pa : Frame} {perm : BitVec 12}
    (h : ∀ w < NPAGES, entry s'.mem d w = entry s.mem d w) : Mapped d v 0 pa perm s s' :=
  fun w hw => by rw [if_neg (by omega), h w hw]

theorem Mapped.cons {v m : ℕ} {pa : Frame} {perm : BitVec 12} (h : Mapped d v 1 pa perm s s')
    (h' : Mapped d (v + 1) m (pa + 1) perm s' s'') : Mapped d v (m + 1) pa perm s s'' := by
  intro w hw
  rw [h' w hw, h w hw]
  by_cases hfirst : w = v
  · rw [if_neg (by omega), if_pos (by omega), if_pos (by omega)]
  · by_cases hrest : v + 1 ≤ w ∧ w < v + 1 + m
    · have hsub : w - v = 1 + (w - (v + 1)) := by omega
      rw [if_pos hrest, if_pos (by omega), hsub, BitVec.ofNat_add, ← BitVec.add_assoc]
      rfl
    · rw [if_neg hrest, if_neg (by omega), if_neg (by omega)]

theorem Grows.setEntry {i j : ℕ} {e : BitVec 32} (hn : (tables s.mem d).Nodup)
    (hj : j < NPDENTRIES) (ht : Vm.tab s.mem d j = some t) :
    Grows d P s { s with mem := setEntry s.mem t i e } where
  moves := by
    refine ⟨?_, fun x hx => setEntry_of_ne ?_⟩
    · show ↑s.freelist + tables (Vm.setEntry s.mem t i e) d = _
      rw [tables_setEntry hn hj ht]
    · rintro rfl
      exact hx (Multiset.mem_add.mpr (.inr (tab_mem_tables hj ht)))
  tab k hk := .inl (by rwa [← congrFun (tab_setEntry hn hj ht) k])
  fails := id
  free _ hf := hf
  pde k := by
    have hne : d ≠ t := by
      rintro rfl
      exact tab_ne_self hn hj ht
    show readPte (Vm.setEntry s.mem t i e d) k = _ ∨ _
    rw [setEntry_of_ne hne]
    exact .inl rfl

theorem not_present_of_entry {v : ℕ} (h : entry s.mem d v = none)
    (ht : tab s.mem d (v / 1024) = some t) : ¬ present (readPte (s.mem t) (v % 1024)) := by
  intro hp
  rw [entry_of_tab ht, if_pos hp] at h
  cases h

theorem mapPage_spec {v a : ℕ} (pa : Frame) (perm : BitVec 12) (h : Own L s (tables s.mem d))
    (ha : a < UINT) (hv : a / 4096 = v) (hfree : entry s.mem d v = none) :
    wp E (mapPage d perm a pa) (fun r s' =>
      Grows d (· = v / 1024) s s' ∧ Mapped d v (if r then 1 else 0) pa perm s s' ∧
      (r = false → s.fails = [] → s'.freelist = [])) s := by
  have hpage : v < NPAGES := by unfold UINT at ha; unfold NPAGES; omega
  unfold mapPage
  rw [wp_bind]
  refine wp_mono (walkpgdir_spec a h) ?_
  rintro r s' ⟨hgrow, hsame, hr⟩
  rw [PDX_eq ha, PTX_eq, hv] at hr
  rw [PDX_eq ha, hv] at hgrow
  match r with
  | none => exact ⟨hgrow, .zero hsame, fun _ => hr⟩
  | some (t, i) =>
    obtain ⟨rfl, ht⟩ := hr
    have hn := (h.moves' hgrow.moves).nodup_owned
    have habsent := not_present_of_entry ((hsame v hpage).trans hfree) ht
    rw [wp_bind, wp_load]
    dsimp only
    rw [if_neg habsent]
    refine ⟨hgrow.trans (.setEntry hn (div_lt_of_page hpage) ht), fun w hw => ?_, nofun⟩
    have hset := entry_setEntry (e := mkPte pa (perm ||| PTE_P)) hn hpage ht hw
    rw [present_mkPte, if_pos rfl, hsame w hw] at hset
    refine hset.trans ?_
    by_cases hwv : w = v
    · rw [if_pos hwv, if_pos (by rw [if_pos rfl]; omega), hwv, Nat.sub_self]
      simp
    · rw [if_neg hwv, if_neg (by rw [if_pos rfl]; omega)]

/-- What mapping the pages `v` to `v + n` does: all of them are mapped, or, with no page left for a
page table, the first few. -/
structure MapsTo (d : Frame) (P : ℕ → Prop) (v n : ℕ) (pa : Frame) (perm : BitVec 12) (s : Mem)
    (r : Bool) (s' : Mem) : Prop where
  grows : Grows d P s s'
  done : r = true → Mapped d v (n + 1) pa perm s s'
  failed : r = false → (∃ m ≤ n, Mapped d v m pa perm s s') ∧ (s.fails = [] → s'.freelist = [])

theorem mapLoop_spec {n v : ℕ} (pa : Frame) (perm : BitVec 12) (h : Own L s (tables s.mem d))
    (hlast : v + n < NPAGES) (hfree : ∀ k ≤ n, entry s.mem d (v + k) = none)
    (hP : ∀ k ≤ n, P ((v + k) / 1024)) :
    wp E (mapLoop d perm n (v * 4096) pa) (MapsTo d P v n pa perm s) s := by
  induction n generalizing v pa s with
  | zero =>
    have ha : v * 4096 < UINT := by unfold NPAGES at hlast; unfold UINT; omega
    refine wp_mono (mapPage_spec pa perm h ha (by omega) (hfree 0 (Nat.le_refl 0))) ?_
    rintro r s' ⟨hgrow, hmap, hstarved⟩
    refine ⟨hgrow.mono fun i hi => hi ▸ hP 0 (Nat.le_refl 0), ?_, ?_⟩
    · rintro rfl
      exact hmap
    · rintro rfl
      exact ⟨⟨0, Nat.le_refl 0, hmap⟩, hstarved rfl⟩
  | succ n ih =>
    have ha : v * 4096 < UINT := by unfold NPAGES at hlast; unfold UINT; omega
    unfold mapLoop
    rw [wp_bind]
    refine wp_mono (mapPage_spec pa perm h ha (by omega) (hfree 0 (Nat.zero_le _))) ?_
    rintro r s' ⟨hgrow, hmap, hstarved⟩
    replace hgrow : Grows d P s s' := hgrow.mono fun i hi => hi ▸ hP 0 (Nat.zero_le _)
    cases r with
    | false => exact ⟨hgrow, nofun, fun _ => ⟨⟨0, Nat.zero_le _, hmap⟩, hstarved rfl⟩⟩
    | true =>
      have hnext : v * 4096 + PGSIZE = (v + 1) * 4096 := by unfold PGSIZE; omega
      have hfree' : ∀ k ≤ n, entry s'.mem d (v + 1 + k) = none := fun k hk => by
        rw [hmap (v + 1 + k) (by omega), if_neg (by rw [if_pos rfl]; omega), Nat.add_assoc,
          hfree (1 + k) (by omega)]
      rw [if_pos rfl, hnext]
      refine wp_mono (ih (pa + 1) (h.moves' hgrow.moves) (by omega) hfree' fun k hk => ?_) ?_
      · rw [Nat.add_assoc]
        exact hP (1 + k) (by omega)
      · rintro r s'' ⟨hgrow', hdone, hfailed⟩
        refine ⟨hgrow.trans hgrow', fun hr => hmap.cons (hdone hr), fun hr => ?_⟩
        obtain ⟨⟨m, hm, hmap'⟩, hst⟩ := hfailed hr
        exact ⟨⟨m + 1, by omega, hmap.cons hmap'⟩, fun hf => hst (hgrow.fails hf)⟩

/-- `mappages` for bytes that lie in the pages `v` to `v + n`. -/
theorem mappages_range {v n : ℕ} (pa : Frame) (perm : BitVec 12) {va size : ℕ}
    (h : Own L s (tables s.mem d)) (hva : va / 4096 = v) (hsize : 0 < size)
    (hend : (va + size - 1) / 4096 = v + n) (hle : va + size ≤ UINT)
    (hfree : ∀ k ≤ n, entry s.mem d (v + k) = none) (hP : ∀ k ≤ n, P ((v + k) / 1024)) :
    wp E (mappages d va size pa perm) (MapsTo d P v n pa perm s) s := by
  have hlast : v + n < NPAGES := by
    unfold UINT at hle
    unfold NPAGES
    omega
  have ha : PGROUNDDOWN va = v * 4096 := by unfold PGROUNDDOWN PGSIZE; omega
  have hstop : PGROUNDDOWN ((va + size + (UINT - 1)) % UINT) = (v + n) * 4096 := by
    unfold UINT at hle
    unfold PGROUNDDOWN PGSIZE UINT
    omega
  have hrounds : ((v + n) * 4096 + UINT - v * 4096) % UINT / PGSIZE = n := by
    unfold NPAGES at hlast
    unfold PGSIZE UINT
    omega
  unfold mappages
  dsimp only
  rw [ha, hstop, hrounds]
  exact mapLoop_spec pa perm h hlast hfree hP

/-- `mappages` for `n + 1` whole pages. -/
theorem mappages_spec {v n : ℕ} (pa : Frame) (perm : BitVec 12) {va size : ℕ}
    (h : Own L s (tables s.mem d)) (hva : va = v * 4096) (hsize : size = (n + 1) * 4096)
    (hlast : v + n < NPAGES) (hfree : ∀ k ≤ n, entry s.mem d (v + k) = none)
    (hP : ∀ k ≤ n, P ((v + k) / 1024)) :
    wp E (mappages d va size pa perm) (MapsTo d P v n pa perm s) s := by
  unfold NPAGES at hlast
  refine mappages_range pa perm h (by omega) (by omega) (by omega) ?_ hfree hP
  unfold UINT
  omega

end DuckoUnix.Vm
