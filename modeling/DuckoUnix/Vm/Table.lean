import DuckoUnix.Lib.Owned
import DuckoUnix.Vm.Model

/-!
# What a page directory maps and owns

`tab` gives the page table of each directory entry and `entry` the present entry of each page.
`tables` are the frames of the directory and of its page tables, `pages` those of the present user
pages, and `vm` both together. They depend on the contents of the frames in `tables` alone. `view` is
what a process sees of its address space, the flags and the contents of each page but not its frame.

Memory changes in two ways that they see: `addTable`, when a page table is added, and `setEntry`,
when the entry of one page is written.
-/

namespace DuckoUnix.Vm

open Lib Function

/-- pages below `KERNBASE` -/
def NUSER : ℕ := 524288
/-- pages of the address space -/
def NPAGES : ℕ := 1048576

/-- The page table of directory entry `i`. -/
def tab (mem : Frame → Bytes) (d : Frame) (i : ℕ) : Option Frame :=
  if present (readPte (mem d) i) then some (PTE_ADDR (readPte (mem d) i)) else none

/-- The entry of page `v`, if it is present. -/
def entry (mem : Frame → Bytes) (d : Frame) (v : ℕ) : Option (BitVec 32) :=
  (tab mem d (v / 1024)).bind fun t =>
    if present (readPte (mem t) (v % 1024)) then some (readPte (mem t) (v % 1024)) else none

/-- `*walkpgdir(pgdir, va, 0)` for page `v`, present or not. -/
def pte (mem : Frame → Bytes) (d : Frame) (v : ℕ) : Option (BitVec 32) :=
  (tab mem d (v / 1024)).map fun t => readPte (mem t) (v % 1024)

/-- The frames of the directory and its page tables. -/
def tables (mem : Frame → Bytes) (d : Frame) : Multiset Frame :=
  {d} + collect NPDENTRIES (tab mem d)

/-- The frames of the user pages. -/
def pages (mem : Frame → Bytes) (d : Frame) : Multiset Frame :=
  collect NUSER fun v => (entry mem d v).map PTE_ADDR

def vm (mem : Frame → Bytes) (d : Frame) : Multiset Frame := tables mem d + pages mem d

/-- A page as its process sees it. -/
@[ext] structure UserPage where
  flags : BitVec 12
  bytes : Bytes

/-- The address space as its process sees it. -/
def view (mem : Frame → Bytes) (d : Frame) (v : ℕ) : Option UserPage :=
  (entry mem d v).map fun e => ⟨PTE_FLAGS e, mem (PTE_ADDR e)⟩

variable {mem mem' : Frame → Bytes} {d t : Frame} {e : BitVec 32} {i v : ℕ}

theorem div_lt_of_page (hv : v < NPAGES) : v / 1024 < NPDENTRIES := by
  unfold NPAGES at hv
  unfold NPDENTRIES
  omega

theorem user_lt (hv : v < NUSER) : v < NPAGES := by
  unfold NUSER at hv
  unfold NPAGES
  omega

theorem mem_tables {f : Frame} :
    f ∈ tables mem d ↔ f = d ∨ ∃ i < NPDENTRIES, tab mem d i = some f := by
  unfold tables
  rw [Multiset.mem_add, Multiset.mem_singleton, mem_collect]

theorem self_mem_tables : d ∈ tables mem d := mem_tables.mpr (.inl rfl)

theorem tab_mem_tables (hi : i < NPDENTRIES) (h : tab mem d i = some t) : t ∈ tables mem d :=
  mem_tables.mpr (.inr ⟨i, hi, h⟩)

theorem mem_pages {f : Frame} :
    f ∈ pages mem d ↔ ∃ v < NUSER, ∃ e, entry mem d v = some e ∧ PTE_ADDR e = f := by
  unfold pages
  rw [mem_collect]
  simp only [Option.map_eq_some_iff]

theorem entry_mem_pages (hv : v < NUSER) (h : entry mem d v = some e) :
    PTE_ADDR e ∈ pages mem d :=
  mem_pages.mpr ⟨v, hv, e, h, rfl⟩

theorem entry_of_tab (h : tab mem d (v / 1024) = some t) :
    entry mem d v =
      if present (readPte (mem t) (v % 1024)) then some (readPte (mem t) (v % 1024)) else none := by
  unfold entry
  rw [h, Option.bind_some]

theorem entry_of_no_tab (h : tab mem d (v / 1024) = none) : entry mem d v = none := by
  unfold entry
  rw [h, Option.bind_none]

theorem present_of_entry (h : entry mem d v = some e) : present e = true := by
  unfold entry at h
  obtain ⟨t, -, h⟩ := Option.bind_eq_some_iff.mp h
  split_ifs at h with hp
  cases h
  exact hp

/-! ## What the views depend on -/

theorem tab_of_dir (h : mem' d = mem d) : tab mem' d = tab mem d := by
  funext i
  unfold tab
  rw [h]

theorem tab_congr (h : ∀ f ∈ tables mem d, mem' f = mem f) : tab mem' d = tab mem d :=
  tab_of_dir (h d self_mem_tables)

theorem entry_congr (h : ∀ f ∈ tables mem d, mem' f = mem f) (hv : v < NPAGES) :
    entry mem' d v = entry mem d v := by
  cases ht : tab mem d (v / 1024) with
  | none => rw [entry_of_no_tab ht, entry_of_no_tab (by rw [tab_congr h, ht])]
  | some t =>
    rw [entry_of_tab ht, entry_of_tab (by rw [tab_congr h, ht]),
      h t (tab_mem_tables (div_lt_of_page hv) ht)]

theorem pte_congr (h : ∀ f ∈ tables mem d, mem' f = mem f) (hv : v < NPAGES) :
    pte mem' d v = pte mem d v := by
  unfold pte
  rw [tab_congr h]
  cases ht : tab mem d (v / 1024) with
  | none => rfl
  | some t => rw [Option.map_some, Option.map_some, h t (tab_mem_tables (div_lt_of_page hv) ht)]

theorem entry_eq_pte (mem : Frame → Bytes) (d : Frame) (v : ℕ) :
    entry mem d v = (pte mem d v).filter fun e => present e := by
  unfold entry pte
  cases tab mem d (v / 1024) with
  | none => rfl
  | some t => rfl

theorem tables_congr (h : ∀ f ∈ tables mem d, mem' f = mem f) : tables mem' d = tables mem d := by
  unfold tables
  rw [tab_congr h]

theorem pages_congr (h : ∀ v < NUSER, entry mem' d v = entry mem d v) :
    pages mem' d = pages mem d :=
  collect_congr fun v hv => by rw [h v hv]

theorem vm_congr (h : ∀ f ∈ tables mem d, mem' f = mem f) : vm mem' d = vm mem d := by
  unfold vm
  rw [tables_congr h, pages_congr fun v hv => entry_congr h (user_lt hv)]

theorem view_of_entry (h : entry mem d v = some e) :
    view mem d v = some ⟨PTE_FLAGS e, mem (PTE_ADDR e)⟩ := by
  unfold view
  rw [h, Option.map_some]

theorem view_of_no_entry (h : entry mem d v = none) : view mem d v = none := by
  unfold view
  rw [h, Option.map_none]

theorem view_congr (he : entry mem' d v = entry mem d v)
    (hpage : ∀ e, entry mem d v = some e → mem' (PTE_ADDR e) = mem (PTE_ADDR e)) :
    view mem' d v = view mem d v := by
  cases h : entry mem d v with
  | none => rw [view_of_no_entry h, view_of_no_entry (he.trans h)]
  | some e => rw [view_of_entry h, view_of_entry (he.trans h), hpage e h]

/-- What the owner of the frames sees depends on them alone. -/
theorem view_of_vm (h : ∀ f ∈ vm mem d, mem' f = mem f) (hv : v < NUSER) :
    view mem' d v = view mem d v :=
  view_congr (entry_congr (fun f hf => h f (Multiset.mem_add.mpr (.inl hf))) (user_lt hv))
    fun _ he => h _ (Multiset.mem_add.mpr (.inr (entry_mem_pages hv he)))

/-! ## The tables of a directory are apart -/

theorem tab_ne_self (hn : (tables mem d).Nodup) (hi : i < NPDENTRIES) : tab mem d i ≠ some d := by
  intro h
  unfold tables at hn
  exact Multiset.disjoint_left.mp (Multiset.nodup_add.mp hn).2.2 (Multiset.mem_singleton_self d)
    (mem_collect.mpr ⟨i, hi, h⟩)

theorem tab_inj {j : ℕ} (hn : (tables mem d).Nodup) (hi : i < NPDENTRIES) (hj : j < NPDENTRIES)
    (h : tab mem d i = some t) (h' : tab mem d j = some t) : i = j :=
  collect_inj (Multiset.nodup_add.mp hn).2.1 hi hj h h'

theorem tab_zeroed {mem : Frame → Bytes} (h : mem d = fun _ => 0) (i : ℕ) : tab mem d i = none := by
  unfold tab
  rw [h, readPte_zero]
  rfl

theorem tables_zeroed {mem : Frame → Bytes} (h : mem d = fun _ => 0) : tables mem d = {d} := by
  unfold tables
  rw [collect_none fun i _ => tab_zeroed h i, add_zero]

/-! ## A new page table -/

/-- Memory after an empty page table `t` has been made for directory entry `i`. -/
def addTable (mem : Frame → Bytes) (d t : Frame) (i : ℕ) : Frame → Bytes :=
  update (update mem t fun _ => 0) d
    (writePte ((update mem t fun _ => 0) d) i (mkPte t (PTE_P ||| PTE_W ||| PTE_U)))

theorem present_pde (t : Frame) : present (mkPte t (PTE_P ||| PTE_W ||| PTE_U)) = true :=
  present_mkPte t (PTE_W ||| PTE_U)

theorem addTable_self (h : t ≠ d) :
    addTable mem d t i d = writePte (mem d) i (mkPte t (PTE_P ||| PTE_W ||| PTE_U)) := by
  unfold addTable
  rw [update_self, update_of_ne h.symm]

theorem addTable_new (h : t ≠ d) : addTable mem d t i t = fun _ => 0 := by
  unfold addTable
  rw [update_of_ne h, update_self]

theorem addTable_of_ne {f : Frame} (hd : f ≠ d) (ht : f ≠ t) : addTable mem d t i f = mem f := by
  unfold addTable
  rw [update_of_ne hd, update_of_ne ht]

theorem tab_addTable (h : t ≠ d) (j : ℕ) :
    tab (addTable mem d t i) d j = if j = i then some t else tab mem d j := by
  unfold tab
  rw [addTable_self h]
  by_cases hj : j = i
  · rw [if_pos hj, hj, readPte_writePte, present_pde, if_pos rfl, PTE_ADDR_mkPte]
  · rw [if_neg hj, readPte_writePte_of_ne hj]

theorem entry_addTable (hn : (tables mem d).Nodup) (ht : t ∉ tables mem d) (hi : tab mem d i = none)
    (hv : v < NPAGES) : entry (addTable mem d t i) d v = entry mem d v := by
  have hne : t ≠ d := fun e => ht (e ▸ self_mem_tables)
  by_cases hvi : v / 1024 = i
  · -- the new page table is empty
    rw [entry_of_tab (by rw [tab_addTable hne, if_pos hvi]), entry_of_no_tab (by rw [hvi, hi]),
      addTable_new hne, readPte_zero]
    rfl
  · have htab : tab (addTable mem d t i) d (v / 1024) = tab mem d (v / 1024) := by
      rw [tab_addTable hne, if_neg hvi]
    cases ht' : tab mem d (v / 1024) with
    | none => rw [entry_of_no_tab ht', entry_of_no_tab (htab.trans ht')]
    | some t' =>
      have hlt := div_lt_of_page hv
      have hd : t' ≠ d := fun e => tab_ne_self hn hlt (e ▸ ht')
      have htt : t' ≠ t := fun e => ht (e ▸ tab_mem_tables hlt ht')
      rw [entry_of_tab ht', entry_of_tab (htab.trans ht'), addTable_of_ne hd htt]

theorem tables_addTable (ht : t ≠ d) (hi : i < NPDENTRIES) (h : tab mem d i = none) :
    tables (addTable mem d t i) d = tables mem d + {t} := by
  have hmove := collect_add_single (f := tab mem d) (g := tab (addTable mem d t i) d) hi
    fun j _ hj => by rw [tab_addTable ht, if_neg hj]
  rw [h, tab_addTable ht, if_pos rfl, single_none, add_zero, single_some] at hmove
  unfold tables
  rw [hmove, add_assoc]

/-! ## A written entry -/

/-- Memory after `e` has been stored in entry `i` of the page table `t`. -/
def setEntry (mem : Frame → Bytes) (t : Frame) (i : ℕ) (e : BitVec 32) : Frame → Bytes :=
  update mem t (writePte (mem t) i e)

theorem setEntry_of_ne {f : Frame} (h : f ≠ t) : setEntry mem t i e f = mem f :=
  update_of_ne h _ _

theorem tab_setEntry (hn : (tables mem d).Nodup) {j : ℕ} (hj : j < NPDENTRIES)
    (ht : tab mem d j = some t) : tab (setEntry mem t i e) d = tab mem d :=
  tab_of_dir (setEntry_of_ne fun h => tab_ne_self hn hj (h ▸ ht))

theorem tables_setEntry (hn : (tables mem d).Nodup) {j : ℕ} (hj : j < NPDENTRIES)
    (ht : tab mem d j = some t) : tables (setEntry mem t i e) d = tables mem d := by
  unfold tables
  rw [tab_setEntry hn hj ht]

/-- Writing the entry of page `v` changes the entry of `v` alone. -/
theorem pte_setEntry (hn : (tables mem d).Nodup) (hv : v < NPAGES)
    (ht : tab mem d (v / 1024) = some t) {w : ℕ} (hw : w < NPAGES) :
    pte (setEntry mem t (v % 1024) e) d w = if w = v then some e else pte mem d w := by
  have htab := tab_setEntry (i := v % 1024) (e := e) hn (div_lt_of_page hv) ht
  unfold pte
  rw [htab]
  cases htw : tab mem d (w / 1024) with
  | none =>
    have hne : w ≠ v := by
      rintro rfl
      cases ht.symm.trans htw
    rw [if_neg hne]
    rfl
  | some t' =>
    rw [Option.map_some, Option.map_some]
    by_cases htt : t' = t
    · -- the same page table, hence the same 1024 pages
      subst htt
      have hdiv := tab_inj hn (div_lt_of_page hw) (div_lt_of_page hv) htw ht
      unfold setEntry
      rw [update_self]
      by_cases hwv : w = v
      · rw [hwv, readPte_writePte, if_pos rfl]
      · rw [readPte_writePte_of_ne (by omega), if_neg hwv]
    · have hne : w ≠ v := by
        rintro rfl
        exact htt (Option.some.inj (htw.symm.trans ht))
      rw [setEntry_of_ne htt, if_neg hne]

theorem entry_setEntry (hn : (tables mem d).Nodup) (hv : v < NPAGES)
    (ht : tab mem d (v / 1024) = some t) {w : ℕ} (hw : w < NPAGES) :
    entry (setEntry mem t (v % 1024) e) d w =
      if w = v then (if present e then some e else none) else entry mem d w := by
  rw [entry_eq_pte, pte_setEntry hn hv ht hw]
  by_cases hwv : w = v
  · rw [if_pos hwv, if_pos hwv, Option.filter_some]
  · rw [if_neg hwv, if_neg hwv, ← entry_eq_pte]

/-- How the user pages change when the entry of one of them does. -/
theorem pages_add_single (hv : v < NUSER) (h : ∀ w < NUSER, w ≠ v → entry mem' d w = entry mem d w) :
    pages mem' d + single ((entry mem d v).map PTE_ADDR) =
      pages mem d + single ((entry mem' d v).map PTE_ADDR) :=
  collect_add_single (f := fun v => (entry mem d v).map PTE_ADDR)
    (g := fun v => (entry mem' d v).map PTE_ADDR) hv fun w hw hne => by rw [h w hw hne]

end DuckoUnix.Vm
