import DuckoUnix.Vm.Space
import Mathlib.Order.Interval.Finset.Nat

/-!
# The kernel part of an address space

The specifications of `setupkvm` and `copyuvm`. `setupkvm` maps the regions of `kmap`, none of
them for the user, and nothing between the top of physical memory and the devices. `Kern` is what
every page directory keeps of that; `copyuvm` adds copies of the parent's user pages to it.
-/

namespace DuckoUnix.Vm

open Lib

variable {L : Layout} {E : Fault → Prop} {s s' s'' : Mem} {A A' X : Multiset Frame}
  {d t f : Frame} {P : ℕ → Prop}

/-! ## setupkvm -/

def Kmap.size (k : Kmap) : ℕ := (k.phys_end + UINT - k.phys_start) % UINT

/-- Page `x` is in the region. -/
def Kmap.Has (k : Kmap) (x : ℕ) : Prop := k.virt ≤ x * 4096 ∧ x * 4096 < k.virt + k.size

def Kmap.pte (k : Kmap) (x : ℕ) : BitVec 32 :=
  mkPte (BitVec.ofNat 20 (k.phys_start / PGSIZE) + BitVec.ofNat 20 (x - k.virt / PGSIZE))
    (k.perm ||| PTE_P)

/-- Regions of whole pages that the user may not use, in ascending order from page `lo` on and
with their page tables in `P`. -/
def Ascending (P : ℕ → Prop) : ℕ → List Kmap → Prop
  | _, [] => True
  | lo, k :: ks => ∃ v n, k.virt = v * 4096 ∧ k.size = (n + 1) * 4096 ∧ lo ≤ v ∧ v + n < NPAGES ∧
      (∀ j ≤ n, P ((v + j) / 1024)) ∧ k.perm.getLsbD 2 = false ∧ Ascending P (v + n + 1) ks

theorem Ascending.le {lo : ℕ} {ks : List Kmap} (h : Ascending P lo ks) {k : Kmap} (hk : k ∈ ks) {x : ℕ}
    (hx : k.Has x) : lo ≤ x := by
  induction ks generalizing lo with
  | nil => cases hk
  | cons k' ks ih =>
    obtain ⟨v, n, hvirt, hsize, hlo, -, -, -, hks⟩ := h
    rcases List.mem_cons.mp hk with rfl | hk
    · have := hx.1
      omega
    · have := ih hks hk
      omega

/-- The pages from `lo` on are mapped as the regions say, and no others. -/
def MapsAll (mem : Frame → Bytes) (d : Frame) (lo : ℕ) (ks : List Kmap) : Prop :=
  ∀ x < NPAGES, lo ≤ x → (∀ k ∈ ks, k.Has x → entry mem d x = some (k.pte x)) ∧
    ((∀ k ∈ ks, ¬ k.Has x) → entry mem d x = none)

/-- What mapping regions from page `lo` on does. -/
structure MapsKernel (d : Frame) (P : ℕ → Prop) (lo : ℕ) (ks : List Kmap) (s : Mem) (r : Bool)
    (s' : Mem) : Prop where
  grows : Grows d P s s'
  below : ∀ x < NPAGES, x < lo → entry s'.mem d x = entry s.mem d x
  noUser : ∀ x < NPAGES, lo ≤ x → ∀ e, entry s'.mem d x = some e → user e = false
  done : r = true → MapsAll s'.mem d lo ks
  starved : r = false → s.fails = [] → s'.freelist = []

theorem mapKernel_spec {lo : ℕ} {ks : List Kmap} (hks : Ascending P lo ks)
    (h : Own L s (tables s.mem d))
    (hnone : ∀ x < NPAGES, lo ≤ x → entry s.mem d x = none) :
    wp E (mapKernel d ks) (MapsKernel d P lo ks s) s := by
  induction ks generalizing lo s with
  | nil =>
    refine ⟨.refl, fun _ _ _ => rfl, fun x hx hlo e he => ?_,
      fun _ x hx hlo => ⟨nofun, fun _ => hnone x hx hlo⟩, nofun⟩
    rw [hnone x hx hlo] at he
    cases he
  | cons k ks ih =>
    obtain ⟨v, n, hvirt, hsize, hlo, hlast, hP, hperm, hks⟩ := hks
    unfold mapKernel
    rw [wp_bind]
    refine wp_mono (mappages_spec (P := P) _ _ h hvirt hsize hlast
      (fun j hj => hnone (v + j) (by omega) (by omega)) hP) ?_
    rintro r s' ⟨hgrow, hdone, hfailed⟩
    -- a page of this region is not for the user
    have huser : ∀ m ≤ n + 1, Mapped d v m (BitVec.ofNat 20 (k.phys_start / PGSIZE)) k.perm s s' →
        ∀ x < NPAGES, x < v + n + 1 → lo ≤ x → ∀ e, entry s'.mem d x = some e →
          user e = false := by
      intro m hm hmap x hx hxv hxlo e he
      rw [hmap x hx] at he
      by_cases hin : v ≤ x ∧ x < v + m
      · rw [if_pos hin] at he
        cases he
        rw [user_mkPte, hperm]
      · rw [if_neg hin, hnone x hx hxlo] at he
        cases he
    cases r with
    | false =>
      obtain ⟨⟨m, hm, hmap⟩, hst⟩ := hfailed rfl
      refine ⟨hgrow, fun x hx hxlo => ?_, fun x hx hxlo e he => ?_, nofun, fun _ => hst⟩
      · rw [hmap x hx, if_neg (by omega)]
      · by_cases hxv : x < v + n + 1
        · exact huser m (by omega) hmap x hx hxv hxlo e he
        · rw [hmap x hx, if_neg (by omega), hnone x hx hxlo] at he
          cases he
    | true =>
      have hmap := hdone rfl
      have hnone' : ∀ x < NPAGES, v + n + 1 ≤ x → entry s'.mem d x = none := fun x hx hxv => by
        rw [hmap x hx, if_neg (by omega), hnone x hx (by omega)]
      rw [if_pos rfl]
      refine wp_mono (ih hks (h.moves' hgrow.moves) hnone') ?_
      rintro r s'' ⟨hgrow', hbelow, hno, hdone', hst⟩
      have hhas : ∀ x, k.Has x ↔ v ≤ x ∧ x < v + n + 1 := fun x => by
        unfold Kmap.Has
        rw [hvirt, hsize]
        omega
      refine ⟨hgrow.trans hgrow', fun x hx hxlo => ?_, fun x hx hxlo e he => ?_,
        fun hr x hx hxlo => ⟨fun k' hk' hin => ?_, fun hout => ?_⟩,
        fun hr hf => hst hr (hgrow.fails hf)⟩
      · rw [hbelow x hx (by omega), hmap x hx, if_neg (by omega)]
      · by_cases hxv : x < v + n + 1
        · rw [hbelow x hx hxv] at he
          exact huser (n + 1) (Nat.le_refl _) hmap x hx hxv hxlo e he
        · exact hno x hx (by omega) e he
      · rcases List.mem_cons.mp hk' with rfl | hk'
        · have hin' := (hhas x).mp hin
          have hfirst : k'.virt / PGSIZE = v := by unfold PGSIZE; omega
          rw [hbelow x hx (by omega), hmap x hx, if_pos (by omega), Kmap.pte, hfirst]
        · exact (hdone' hr x hx (hks.le hk' hin)).1 k' hk' hin
      · have hk := mt (hhas x).mpr (hout k List.mem_cons_self)
        by_cases hxv : x < v + n + 1
        · rw [hbelow x hx hxv, hmap x hx, if_neg (by omega), hnone x hx hxlo]
        · exact (hdone' hr x hx (by omega)).2 fun k' hk' => hout k' (List.mem_cons_of_mem k hk')

/-- The directory entries of the kernel's page tables. -/
def kernelTab (i : ℕ) : Prop := 512 ≤ i ∧ i < 568 ∨ 1016 ≤ i ∧ i < 1024

theorem kmap_ascending (L : Layout) : Ascending kernelTab NUSER (kmap L) := by
  obtain ⟨data, kend, haligned, htext, -, hdata, -⟩ := L
  unfold PGSIZE at haligned
  unfold KERNLINK KERNBASE EXTMEM at htext
  unfold KERNBASE PHYSTOP at hdata
  refine ⟨524288, 255, by decide, by decide, by unfold NUSER; omega, by unfold NPAGES; omega,
    fun j hj => .inl (by omega), by decide, ?_⟩
  refine ⟨524544, (data - 2148532224) / 4096 - 1, rfl, ?_, by omega, ?_, fun j hj => .inl ?_,
    (by decide : (0 : BitVec 12).getLsbD 2 = false), ?_⟩
  · unfold Kmap.size KERNLINK KERNBASE EXTMEM UINT
    dsimp only
    omega
  · unfold NPAGES
    omega
  · omega
  refine ⟨data / 4096, (0x8E000000 - data) / 4096 - 1, by dsimp only; omega, ?_, by omega, ?_,
    fun j hj => .inl ?_, (by decide : PTE_W.getLsbD 2 = false), ?_⟩
  · unfold Kmap.size KERNBASE PHYSTOP UINT
    dsimp only
    omega
  · unfold NPAGES
    omega
  · omega
  refine ⟨1040384, 8191, by decide, by decide, by omega, by unfold NPAGES; omega,
    fun j hj => .inr (by omega), by decide, trivial⟩

/-- The pages that `kmap` maps. -/
def kernelPage (x : ℕ) : Prop := 524288 ≤ x ∧ x < 581632 ∨ 1040384 ≤ x ∧ x < 1048576

theorem kmap_has (L : Layout) {x : ℕ} (hx : kernelPage x) : ∃ k ∈ kmap L, k.Has x := by
  obtain ⟨data, kend, haligned, htext, -, hdata, -⟩ := L
  unfold PGSIZE at haligned
  unfold KERNLINK KERNBASE EXTMEM at htext
  unfold KERNBASE PHYSTOP at hdata
  unfold kmap Kmap.Has Kmap.size KERNLINK KERNBASE EXTMEM PHYSTOP DEVSPACE UINT
  simp only [List.mem_cons, List.not_mem_nil, or_false, exists_eq_or_imp, exists_eq_left]
  rcases hx with hx | hx
  · by_cases h1 : x < 524544
    · exact .inl (by omega)
    · by_cases h2 : x * 4096 < data
      · exact .inr (.inl (by omega))
      · exact .inr (.inr (.inl (by omega)))
  · exact .inr (.inr (.inr (by omega)))

/-- What holds of the kernel part of a page directory: no page of it is for the user, the pages of
`kmap` are mapped, and above physical memory there are no page tables but for the devices. -/
structure Kern (mem : Frame → Bytes) (d : Frame) : Prop where
  noUser : ∀ x < NPAGES, NUSER ≤ x → ∀ e, entry mem d x = some e → user e = false
  mapped : ∀ x, kernelPage x → (entry mem d x).isSome
  gap : ∀ i, 568 ≤ i → i < 1016 → tab mem d i = none

theorem kernelPage_lt {x : ℕ} (h : kernelPage x) : NUSER ≤ x ∧ x < NPAGES := by
  unfold kernelPage at h
  unfold NUSER NPAGES
  omega

theorem Kern.changes (h : Kern s.mem d) (hc : Changes d s s')
    (he : ∀ x < NPAGES, NUSER ≤ x → entry s'.mem d x = entry s.mem d x) : Kern s'.mem d where
  noUser x hx hlo e := by
    rw [he x hx hlo]
    exact h.noUser x hx hlo e
  mapped x hx := by
    obtain ⟨hlo, hhi⟩ := kernelPage_lt hx
    rw [he x hhi hlo]
    exact h.mapped x hx
  gap i hlo hhi := by
    by_contra hne
    rcases hc.tab i (Option.isSome_iff_ne_none.mpr hne) with hsome | hlt
    · rw [h.gap i hlo hhi] at hsome
      cases hsome
    · omega

theorem Kern.congr {mem mem' : Frame → Bytes} (h : Kern mem d)
    (hsame : ∀ f ∈ tables mem d, mem' f = mem f) : Kern mem' d where
  noUser x hx hlo e := by
    rw [entry_congr hsame hx]
    exact h.noUser x hx hlo e
  mapped x hx := by
    rw [entry_congr hsame (kernelPage_lt hx).2]
    exact h.mapped x hx
  gap i hlo hhi := by
    rw [tab_congr hsame]
    exact h.gap i hlo hhi

def kernelTabs : Finset ℕ := Finset.Ico 512 568 ∪ Finset.Ico 1016 1024

theorem kernelTabs_card : kernelTabs.card ≤ 64 := by
  refine (Finset.card_union_le _ _).trans ?_
  rw [Nat.card_Ico, Nat.card_Ico]

theorem mem_kernelTabs {i : ℕ} (h : kernelTab i) : i ∈ kernelTabs := by
  unfold kernelTabs
  rw [Finset.mem_union, Finset.mem_Ico, Finset.mem_Ico]
  exact h

/-- What `setupkvm` returns: a page directory with the kernel part only, or nothing. -/
structure SetsUp (L : Layout) (s : Mem) (r : Option Frame) (s' : Mem) : Prop where
  fails : s.fails = [] → s'.fails = []
  failed : r = none → Moves s 0 s' 0 ∧ (s.fails = [] → s.freelist.length ≤ 65)
  moves : ∀ d, r = some d → Moves s 0 s' (vm s'.mem d)
  kern : ∀ d, r = some d → Kern s'.mem d
  empty : ∀ d, r = some d → ∀ x < NUSER, entry s'.mem d x = none
  length : ∀ d, r = some d → s.freelist.length ≤ s'.freelist.length + 65
  kernel : ∀ d, r = some d → MapsAll s'.mem d NUSER (kmap L)
  pde : ∀ d, r = some d → ∀ i, readPte (s'.mem d) i = 0 ∨
    ∃ t, readPte (s'.mem d) i = mkPte t (PTE_P ||| PTE_W ||| PTE_U)

theorem vm_eq_tables {mem : Frame → Bytes} (h : ∀ x < NUSER, entry mem d x = none) :
    vm mem d = tables mem d := by
  unfold vm pages
  rw [collect_none fun x hx => by rw [h x hx]; rfl, add_zero]

theorem setupkvm_spec (h : Own L s 0) : wp E (setupkvm L) (SetsUp L s) s := by
  unfold setupkvm
  rw [wp_bind]
  refine wp_kalloc (fun d fs hfree => ?_) fun hnone => ?_
  · dsimp only
    rw [wp_bind, wp_memset, if_neg (by decide), wp_bind]
    set s₁ : Mem := { mem := Function.update s.mem d fun _ => 0, freelist := fs, fails := s.fails.tail }
    have hzero : s₁.mem d = fun _ => 0 := Function.update_self ..
    have hnone : ∀ x, entry s₁.mem d x = none := fun x => entry_of_no_tab (tab_zeroed hzero _)
    have htake : Moves s 0 s₁ (tables s₁.mem d) := by
      rw [tables_zeroed hzero, ← zero_add ({d} : Multiset Frame)]
      exact Own.take hfree
    have hown := h.moves' htake
    refine wp_mono (mapKernel_spec (kmap_ascending L) hown fun x _ _ => hnone x) ?_
    rintro r s' ⟨hgrow, hbelow, hno, hdone, hst⟩
    have hempty : ∀ x < NUSER, entry s'.mem d x = none := fun x hx => by
      rw [hbelow x (user_lt hx) hx, hnone]
    have hmoves : Moves s 0 s' (vm s'.mem d) := by
      rw [vm_eq_tables hempty]
      exact htake.trans hgrow.moves
    have hlen : s.freelist.length ≤ s'.freelist.length + 65 := by
      have hle := hgrow.length_le fun i => mem_kernelTabs
      have hcard := kernelTabs_card
      have : s.freelist.length = s₁.freelist.length + 1 := by rw [hfree]; rfl
      omega
    have hfails : s.fails = [] → s'.fails = [] := fun hf => hgrow.fails (starved_fails hf)
    cases r with
    | true =>
      refine ⟨hfails, nofun, ?_, ?_, ?_, ?_, ?_, ?_⟩
      all_goals
        rintro d' hd
        obtain rfl : d = d' := Option.some.inj hd
      · exact hmoves
      · refine ⟨fun x hx hlo e he => hno x hx hlo e he, fun x hx => ?_, fun i hlo hhi => ?_⟩
        · obtain ⟨k, hk, hin⟩ := kmap_has L hx
          obtain ⟨hlo, hlt⟩ := kernelPage_lt hx
          rw [(hdone rfl x hlt hlo).1 k hk hin]
          rfl
        · by_contra hne
          rcases hgrow.tab i (Option.isSome_iff_ne_none.mpr hne) with hsome | hk
          · rw [tab_zeroed hzero] at hsome
            cases hsome
          · unfold kernelTab at hk
            omega
      · exact hempty
      · exact hlen
      · exact hdone rfl
      · intro i
        rcases hgrow.pde i with e | ⟨-, ht⟩
        · rw [e, hzero, readPte_zero]
          exact .inl rfl
        · exact .inr ht
    | false =>
      rw [if_neg Bool.false_ne_true, wp_bind]
      refine wp_mono (freevm_spec (h.moves' hmoves)) ?_
      rintro _ s'' ⟨hfree', hfails'⟩
      refine ⟨fun hf => hfails' (hfails hf), fun _ => ⟨hmoves.trans hfree', fun hf => ?_⟩, nofun,
        nofun, nofun, nofun, nofun, nofun⟩
      rw [hst rfl (starved_fails hf)] at hlen
      exact hlen
  · refine ⟨starved_fails, fun _ => ⟨Lib.Moves.refl, fun hf => ?_⟩, nofun, nofun, nofun, nofun, nofun,
      nofun⟩
    rw [hnone hf]
    exact Nat.zero_le _

/-! ## copyuvm -/

end DuckoUnix.Vm
