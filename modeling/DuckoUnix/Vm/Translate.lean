import DuckoUnix.Vm.Resize

/-!
# What the hardware reads

`mmu` reads the two levels of a page table as the hardware does. `mappages` installs the translation
that it is asked for and no other, in a loop that ends when it meets the last page, which may be the
last page of all. So a page directory of `setupkvm` translates the pages of `kmap` and nothing else
(`mappages_installs`).
-/

namespace DuckoUnix.Vm

open Lib

variable {L : Layout} {s s' : Mem} {d : Frame} {P : ℕ → Prop} {x : ℕ} {e : BitVec 32}

/-! ## The two levels -/

/-- Where a page is and what may be done with it. -/
@[ext] structure Translation where
  frame : Frame
  flags : BitVec 12

/-- The flags of an entry; to write and the user's access need the directory's consent too. -/
def restrict (pde flags : BitVec 12) : BitVec 12 := flags &&& (pde ||| ~~~(PTE_W ||| PTE_U))

/-- The translation of page `x`. -/
def mmu (mem : Frame → Bytes) (d : Frame) (x : ℕ) : Option Translation :=
  let pde := readPte (mem d) (x / 1024)
  if present pde then
    let e := readPte (mem (PTE_ADDR pde)) (x % 1024)
    if present e then some ⟨PTE_ADDR e, restrict (PTE_FLAGS pde) (PTE_FLAGS e)⟩ else none
  else none

theorem mmu_eq (mem : Frame → Bytes) (d : Frame) (x : ℕ) :
    mmu mem d x = (entry mem d x).map fun e =>
      ⟨PTE_ADDR e, restrict (PTE_FLAGS (readPte (mem d) (x / 1024))) (PTE_FLAGS e)⟩ := by
  unfold mmu entry tab
  dsimp only
  split_ifs with hpde he
  · rw [Option.bind_some, if_pos he, Option.map_some]
  · rw [Option.bind_some, if_neg he, Option.map_none]
  · rw [Option.bind_none, Option.map_none]

/-- What the directory allows in entry `i`, with the page table that `walkpgdir` makes if there is
none. -/
def dirFlags (mem : Frame → Bytes) (d : Frame) (i : ℕ) : BitVec 12 :=
  if present (readPte (mem d) i) then PTE_FLAGS (readPte (mem d) i) else PTE_P ||| PTE_W ||| PTE_U

/-- Every page table of the directory is writable and the user's, as `walkpgdir` makes them. -/
def Generous (mem : Frame → Bytes) (d : Frame) : Prop :=
  ∀ i, present (readPte (mem d) i) →
    PTE_FLAGS (readPte (mem d) i) &&& (PTE_W ||| PTE_U) = PTE_W ||| PTE_U

theorem restrict_of_full {pde : BitVec 12} (h : pde &&& (PTE_W ||| PTE_U) = PTE_W ||| PTE_U)
    (flags : BitVec 12) : restrict pde flags = flags := by
  have hall : pde ||| ~~~(PTE_W ||| PTE_U) = BitVec.allOnes 12 := by
    rw [← BitVec.not_inj, BitVec.not_or, BitVec.not_not, ← h, BitVec.and_comm pde,
      ← BitVec.and_assoc, BitVec.and_comm (~~~pde)]
    simp [BitVec.and_assoc]
  rw [restrict, hall, BitVec.and_allOnes]

theorem Generous.restrict (h : Generous s.mem d) (i : ℕ) (flags : BitVec 12) :
    restrict (dirFlags s.mem d i) flags = flags := by
  unfold dirFlags
  split_ifs with hp
  · exact restrict_of_full (h i hp) flags
  · exact restrict_of_full (by decide) flags

theorem present_of_entry_some (h : entry s.mem d x = some e) :
    present (readPte (s.mem d) (x / 1024)) = true := by
  by_contra hp
  have htab : tab s.mem d (x / 1024) = none := if_neg hp
  rw [entry_of_no_tab htab] at h
  cases h

theorem mmu_of_entry (h : entry s.mem d x = some e) :
    mmu s.mem d x = some ⟨PTE_ADDR e, Vm.restrict (dirFlags s.mem d (x / 1024)) (PTE_FLAGS e)⟩ := by
  rw [mmu_eq, h, Option.map_some, dirFlags, if_pos (present_of_entry_some h)]

theorem mmu_of_no_entry (h : entry s.mem d x = none) : mmu s.mem d x = none := by
  rw [mmu_eq, h, Option.map_none]

theorem Grows.dirFlags (h : Grows d P s s') (i : ℕ) : dirFlags s'.mem d i = dirFlags s.mem d i := by
  unfold Vm.dirFlags
  rcases h.pde i with hsame | ⟨habsent, t, hnew⟩
  · rw [hsame]
  · rw [hnew, present_pde, if_pos rfl, habsent, if_neg Bool.false_ne_true, PTE_FLAGS_mkPte]

theorem Grows.mmu (h : Grows d P s s') (he : entry s'.mem d x = some e) :
    mmu s'.mem d x = some ⟨PTE_ADDR e, restrict (Vm.dirFlags s.mem d (x / 1024)) (PTE_FLAGS e)⟩ := by
  rw [mmu_of_entry he, h.dirFlags]

/-! ## mappages -/

/-- The loop of `mappages` as it is written, for at most `n` rounds: it ends when `a == last`.
Nothing is returned if it has not ended. -/
def mapFor (pgdir : Frame) (perm : BitVec 12) (last : ℕ) : ℕ → ℕ → Frame → K (Option Bool)
  | 0, _, _ => return none
  | n + 1, a, pa => do
    if ← mapPage pgdir perm a pa then
      if a = last then return some true
      else mapFor pgdir perm last n ((a + PGSIZE) % UINT) (pa + 1)
    else return some false

theorem mapFor_eq {n m v : ℕ} (perm : BitVec 12) (pa : Frame) (hlast : v + n < NPAGES) (hm : n < m) :
    mapFor d perm ((v + n) * PGSIZE) m (v * PGSIZE) pa =
      mapLoop d perm n (v * PGSIZE) pa >>= fun r => pure (some r) := by
  induction n generalizing v m pa with
  | zero =>
    obtain ⟨m, rfl⟩ : ∃ k, m = k + 1 := ⟨m - 1, by omega⟩
    rw [mapFor, mapLoop]
    refine bind_congr fun r => ?_
    cases r with
    | false => rfl
    | true => rw [if_pos rfl, Nat.add_zero, if_pos rfl]
  | succ n ih =>
    obtain ⟨m, rfl⟩ : ∃ k, m = k + 1 := ⟨m - 1, by omega⟩
    have hne : v * PGSIZE ≠ (v + (n + 1)) * PGSIZE := by
      unfold PGSIZE
      omega
    have hmod : (v * PGSIZE + PGSIZE) % UINT = (v + 1) * PGSIZE := by
      unfold NPAGES at hlast
      unfold PGSIZE UINT
      omega
    have hnext : v * PGSIZE + PGSIZE = (v + 1) * PGSIZE := by
      unfold PGSIZE
      omega
    have hend : v + (n + 1) = v + 1 + n := by omega
    rw [mapFor, mapLoop, bind_assoc]
    refine bind_congr fun r => ?_
    cases r with
    | false => rfl
    | true =>
      rw [if_pos rfl, if_neg hne, if_pos rfl, hmod, hnext, hend]
      exact ih (pa + 1) (by omega) (by omega)

theorem exists_last_page {va size : ℕ} (hsize : 0 < size) (hle : va + size ≤ UINT) :
    ∃ n, (va + size - 1) / 4096 = va / 4096 + n ∧ va / 4096 + n < NPAGES := by
  refine ⟨(va + size - 1) / 4096 - va / 4096, by omega, ?_⟩
  unfold UINT at hle
  unfold NPAGES
  omega

/-- The loop ends by itself, also when the last page is the last of all. -/
theorem mapFor_mappages {va size n : ℕ} (pa : Frame) (perm : BitVec 12) (hsize : 0 < size)
    (hle : va + size ≤ UINT) (hn : NPAGES ≤ n) :
    mapFor d perm (PGROUNDDOWN ((va + size + (UINT - 1)) % UINT)) n (PGROUNDDOWN va) pa =
      mappages d va size pa perm >>= fun r => pure (some r) := by
  obtain ⟨k, hk, hlast⟩ := exists_last_page hsize hle
  have ha : PGROUNDDOWN va = va / 4096 * PGSIZE := by
    unfold PGROUNDDOWN PGSIZE
    omega
  have hstop : PGROUNDDOWN ((va + size + (UINT - 1)) % UINT) = (va / 4096 + k) * PGSIZE := by
    unfold UINT at hle
    unfold PGROUNDDOWN PGSIZE UINT
    omega
  have hrounds : ((va / 4096 + k) * PGSIZE + UINT - va / 4096 * PGSIZE) % UINT / PGSIZE = k := by
    unfold NPAGES at hlast
    unfold PGSIZE UINT
    omega
  unfold mappages
  dsimp only
  rw [ha, hstop, hrounds]
  exact mapFor_eq perm pa hlast (by omega)

/-- The pages of `va` to `va + size` translate to those from frame `pa` on with permission `perm`, as
far as the directory allows it, and all other pages translate as they did. -/
structure Installs (d : Frame) (va size : ℕ) (pa : Frame) (perm : BitVec 12) (s s' : Mem) :
    Prop where
  range : ∀ x, va / PGSIZE ≤ x → x ≤ (va + size - 1) / PGSIZE → mmu s'.mem d x =
    some ⟨pa + BitVec.ofNat 20 (x - va / PGSIZE),
      restrict (dirFlags s.mem d (x / 1024)) (perm ||| PTE_P)⟩
  full : Generous s.mem d → ∀ x, va / PGSIZE ≤ x → x ≤ (va + size - 1) / PGSIZE →
    mmu s'.mem d x = some ⟨pa + BitVec.ofNat 20 (x - va / PGSIZE), perm ||| PTE_P⟩
  other : ∀ x < NPAGES, ¬ (va / PGSIZE ≤ x ∧ x ≤ (va + size - 1) / PGSIZE) →
    mmu s'.mem d x = mmu s.mem d x

theorem MapsTo.installs {v n va size : ℕ} {pa : Frame} {perm : BitVec 12}
    (h : MapsTo d P v n pa perm s true s') (hva : va / 4096 = v)
    (hend : (va + size - 1) / 4096 = v + n) (hlast : v + n < NPAGES) :
    Installs d va size pa perm s s' := by
  have hmap := h.done rfl
  have hrange : ∀ x, va / PGSIZE ≤ x → x ≤ (va + size - 1) / PGSIZE → mmu s'.mem d x =
      some ⟨pa + BitVec.ofNat 20 (x - va / PGSIZE),
        restrict (dirFlags s.mem d (x / 1024)) (perm ||| PTE_P)⟩ := by
    unfold PGSIZE
    rw [hva, hend]
    intro x h1 h2
    have he := hmap x (by omega)
    rw [if_pos ⟨h1, by omega⟩] at he
    rw [h.grows.mmu he, PTE_ADDR_mkPte, PTE_FLAGS_mkPte]
  refine ⟨hrange, fun hgen x h1 h2 => ?_, fun x hx hout => ?_⟩
  · rw [hrange x h1 h2, hgen.restrict]
  · unfold PGSIZE at hout
    rw [hva, hend] at hout
    have he := hmap x hx
    rw [if_neg (by omega)] at he
    cases hold : entry s.mem d x with
    | none => rw [mmu_of_no_entry hold, mmu_of_no_entry (he.trans hold)]
    | some e => rw [mmu_of_entry hold, h.grows.mmu (he.trans hold)]

/-! ## setupkvm -/

/-- The directory translates the pages of `kmap` as `kmap` says, and nothing else; no page is for
the user. -/
structure KernelOnly (L : Layout) (mem : Frame → Bytes) (d : Frame) : Prop where
  mapped : ∀ x < NPAGES, ∀ k ∈ kmap L, k.Has x → mmu mem d x =
    some ⟨BitVec.ofNat 20 (k.phys_start / PGSIZE) + BitVec.ofNat 20 (x - k.virt / PGSIZE),
      k.perm ||| PTE_P⟩
  other : ∀ x < NPAGES, (∀ k ∈ kmap L, ¬ k.Has x) → mmu mem d x = none
  noUser : ∀ x < NPAGES, ∀ t, mmu mem d x = some t → t.flags &&& PTE_U = 0

theorem SetsUp.kernelOnly (h : SetsUp L s (some d) s') : KernelOnly L s'.mem d := by
  have hgen : Generous s'.mem d := fun i hp => by
    rcases h.pde d rfl i with hzero | ⟨t, ht⟩
    · rw [hzero, present_zero] at hp
      cases hp
    · rw [ht, PTE_FLAGS_mkPte]
      decide
  have hmapped : ∀ x < NPAGES, ∀ k ∈ kmap L, k.Has x → mmu s'.mem d x =
      some ⟨BitVec.ofNat 20 (k.phys_start / PGSIZE) + BitVec.ofNat 20 (x - k.virt / PGSIZE),
        k.perm ||| PTE_P⟩ := fun x hx k hk hin => by
    have he := (h.kernel d rfl x hx ((kmap_ascending L).le hk hin)).1 k hk hin
    rw [mmu_of_entry he, hgen.restrict, Kmap.pte, PTE_ADDR_mkPte, PTE_FLAGS_mkPte]
  have hother : ∀ x < NPAGES, (∀ k ∈ kmap L, ¬ k.Has x) → mmu s'.mem d x = none :=
    fun x hx hout => by
      by_cases hlo : NUSER ≤ x
      · exact mmu_of_no_entry ((h.kernel d rfl x hx hlo).2 hout)
      · exact mmu_of_no_entry (h.empty d rfl x (by omega))
  have hperm : ∀ k ∈ kmap L, (k.perm ||| PTE_P) &&& PTE_U = 0 := by
    intro k hk
    simp only [kmap, List.mem_cons, List.not_mem_nil, or_false] at hk
    have hw : (PTE_W ||| PTE_P) &&& PTE_U = 0 := by decide
    have hr : ((0 : BitVec 12) ||| PTE_P) &&& PTE_U = 0 := by decide
    rcases hk with rfl | rfl | rfl | rfl
    exacts [hw, hr, hw, hw]
  refine ⟨hmapped, hother, fun x hx t ht => ?_⟩
  by_cases hin : ∃ k ∈ kmap L, k.Has x
  · obtain ⟨k, hk, hin⟩ := hin
    rw [hmapped x hx k hk hin] at ht
    cases ht
    exact hperm k hk
  · rw [hother x hx fun k hk hk' => hin ⟨k, hk, hk'⟩] at ht
    cases ht

/-- For pages that are not present yet, `mappages` returns, from a loop that ends by itself, and if
it returns 0 then it has installed the translation asked for. So every page directory that
`setupkvm` returns has the mappings of `kmap` and nothing else. -/
theorem mappages_installs (L : Layout) :
    (∀ d va size pa perm s, 0 < size → va + size ≤ UINT → Own L s (tables s.mem d) →
      (∀ x, va / PGSIZE ≤ x → x ≤ (va + size - 1) / PGSIZE → entry s.mem d x = none) →
      (∀ n, NPAGES ≤ n →
        mapFor d perm (PGROUNDDOWN ((va + size + (UINT - 1)) % UINT)) n (PGROUNDDOWN va) pa =
          mappages d va size pa perm >>= fun r => pure (some r)) ∧
      ∃ r s', mappages d va size pa perm s = .ok (r, s') ∧
        (r = true → Installs d va size pa perm s s')) ∧
    (∀ s, Own L s 0 → ∃ r s', setupkvm L s = .ok (r, s') ∧
      ∀ d, r = some d → KernelOnly L s'.mem d) := by
  refine ⟨fun d va size pa perm s hsize hle hown hfree =>
    ⟨fun n hn => mapFor_mappages pa perm hsize hle hn, ?_⟩, fun s hown => ?_⟩
  · obtain ⟨k, hk, hlast⟩ := exists_last_page hsize hle
    have hspec : wp (fun _ => False) (mappages d va size pa perm) _ s :=
      mappages_range (P := fun _ => True) pa perm hown rfl hsize hk hle
        (fun j hj => hfree _ (by unfold PGSIZE; omega) (by unfold PGSIZE; omega)) fun _ _ => trivial
    obtain ⟨r, s', hs', hmaps⟩ := wp_returns hspec
    refine ⟨r, s', hs', ?_⟩
    rintro rfl
    exact hmaps.installs rfl hk hlast
  · obtain ⟨r, s', hs', hset⟩ := wp_returns (setupkvm_spec hown)
    refine ⟨r, s', hs', ?_⟩
    rintro d rfl
    exact hset.kernelOnly

/-- Two pages above a process with one page, and a page directory of its own. -/
theorem mappages_installs_roomy :
    (∃ r s', mappages 0x1000 4097 4096 0x500 PTE_W roomy = .ok (r, s') ∧
      (r = true → Installs 0x1000 4097 4096 0x500 PTE_W roomy s')) ∧
    ∃ r s', setupkvm smallKernel roomy = .ok (r, s') ∧
      ∀ d, r = some d → KernelOnly smallKernel s'.mem d := by
  obtain ⟨hmap, hset⟩ := mappages_installs smallKernel
  have hown := roomy_inStep.own
  have hfree : ∀ x, 4097 / PGSIZE ≤ x → x ≤ (4097 + 4096 - 1) / PGSIZE →
      entry roomy.mem 0x1000 x = none := fun x h1 h2 => by
    unfold PGSIZE at h1 h2
    refine (onePage_entry (by unfold NPAGES; omega)).trans (if_neg ?_)
    omega
  refine ⟨(hmap 0x1000 4097 4096 0x500 PTE_W roomy (by decide) (by decide) hown.left hfree).2,
    hset roomy ?_⟩
  rw [← zero_add (vm roomy.mem 0x1000)] at hown
  exact hown.left

end DuckoUnix.Vm
