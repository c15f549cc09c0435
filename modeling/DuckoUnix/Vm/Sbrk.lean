import DuckoUnix.Lib.Run
import DuckoUnix.Vm.Space

/-!
# Process size and mapping

`growproc` of `proc.c` and `sys_sbrk` of `sysproc.c`. A process is in step when its present user
pages are those that hold `sz` bytes. `growproc` keeps a process in step except where the new size
would be 0 or negative: `allocuvm` and `deallocuvm` return a size with 0 for an error, and the
difference `sz + n` is taken in `uint`. Whatever the calls, no page is present above the size
(`sbrk_confined`).
-/

namespace DuckoUnix.Vm

open Lib

variable {L : Layout} {E : Fault → Prop} {s s' : Mem} {d : Frame} {sz : ℕ} {n : ℤ}

def addUint (sz : ℕ) (n : ℤ) : ℕ := ((sz + n) % UINT).toNat

/-- Grow the process with page directory `pgdir` and size `sz` by `n` bytes. Returns the return
value and the size of the process afterwards. -/
def growproc (L : Layout) (pgdir : Frame) (sz : ℕ) (n : ℤ) : K (ℤ × ℕ) := do
  let sz' ←
    if 0 < n then allocuvm L pgdir sz (addUint sz n)
    else if n < 0 then deallocuvm L pgdir sz (addUint sz n)
    else pure sz
  if n ≠ 0 ∧ sz' = 0 then return (-1, sz) else return (0, sz')

/-- `sys_sbrk`: the size before, or -1. -/
def sys_sbrk (L : Layout) (pgdir : Frame) (sz : ℕ) (n : ℤ) : K (ℤ × ℕ) := do
  let addr := sz
  let (r, sz) ← growproc L pgdir sz n
  if r < 0 then return (-1, sz) else return (addr, sz)

/-- The user pages of `d` are exactly those below `sz`, and they are its own. -/
structure InStep (L : Layout) (d : Frame) (sz : ℕ) (s : Mem) : Prop where
  own : Own L s (vm s.mem d)
  pages : ∀ v, (v < NUSER ∧ (entry s.mem d v).isSome) ↔ v < pgs sz

namespace InStep

theorem sz_le (h : InStep L d sz s) : sz ≤ KERNBASE := by
  have hpages : pgs sz ≤ NUSER := by
    by_contra hlt
    exact Nat.lt_irrefl _ ((h.pages NUSER).mpr (Nat.lt_of_not_le hlt)).1
  unfold pgs NUSER at hpages
  unfold KERNBASE
  omega

theorem below (h : InStep L d sz s) : Below s.mem d sz := fun x hx hle => by
  by_contra hne
  have := (h.pages x).mp ⟨hx, Option.isSome_iff_ne_none.mpr hne⟩
  omega

theorem adds {newsz : ℕ} (h : InStep L d sz s) (hle : sz ≤ newsz) (hnew : newsz < KERNBASE)
    (ha : Adds d (pgs sz) (pgs newsz) s s') : InStep L d newsz s' := by
  refine ⟨h.own.moves' ha.moves, fun v => ?_⟩
  have hpgs : pgs sz ≤ pgs newsz := by unfold pgs; omega
  by_cases hin : pgs sz ≤ v ∧ v < pgs newsz
  · have hv : v < NUSER := Nat.lt_of_lt_of_le hin.2 (pgs_le (Nat.le_of_lt hnew))
    obtain ⟨f, hf⟩ := ha.new v (user_lt hv) hin.1 hin.2
    rw [hf]
    exact ⟨fun _ => hin.2, fun _ => ⟨hv, rfl⟩⟩
  · have hiff : v < pgs newsz ↔ v < pgs sz := by omega
    rw [hiff, ← h.pages v]
    exact and_congr_right fun hv => by rw [ha.old v (user_lt hv) hin]

theorem drops {newsz : ℕ} (h : InStep L d sz s) (hle : newsz ≤ sz)
    (hd : Drops d (pgs newsz) (pgs sz) s s') : InStep L d newsz s' := by
  refine ⟨h.own.moves' hd.moves, fun v => ?_⟩
  have hpgs : pgs newsz ≤ pgs sz := by unfold pgs; omega
  by_cases hin : pgs newsz ≤ v ∧ v < pgs sz
  · refine ⟨fun hv => ?_, fun hv => by omega⟩
    rw [hd.entry v (user_lt hv.1), if_pos hin] at hv
    cases hv.2
  · have hiff : v < pgs newsz ↔ v < pgs sz := by omega
    rw [hiff, ← h.pages v]
    exact and_congr_right fun hv => by rw [hd.entry v (user_lt hv), if_neg hin]

theorem keeps (h : InStep L d sz s) (hk : Keeps d s s') : InStep L d sz s' :=
  ⟨h.own.moves' hk.moves, fun v => by
    rw [← h.pages v]
    exact and_congr_right fun hv => by rw [hk.entry v (user_lt hv)]⟩

end InStep

/-! ## growproc -/

/-- What a call of `growproc` should do: leave the process in step, at size `sz + n` if it returns
0, and with the size and every user mapping as they were if it returns -1. -/
structure Grown (L : Layout) (d : Frame) (sz : ℕ) (n : ℤ) (s : Mem) (r : ℤ × ℕ) (s' : Mem) :
    Prop where
  inStep : InStep L d r.2 s'
  returns : r.1 = 0 ∨ r.1 = -1
  grown : r.1 = 0 → (r.2 : ℤ) = sz + n
  failed : r.1 = -1 → r.2 = sz ∧ ∀ v < NUSER, entry s'.mem d v = entry s.mem d v

theorem addUint_pos (h : 0 ≤ sz + n) (hlt : sz + n < UINT) : (addUint sz n : ℤ) = sz + n := by
  unfold addUint
  rw [Int.emod_eq_of_lt h hlt, Int.toNat_of_nonneg h]

theorem addUint_neg (h : sz + n < 0) (hlt : -UINT ≤ sz + n) :
    (addUint sz n : ℤ) = sz + n + UINT := by
  unfold addUint
  have hmod : (sz + n) % UINT = sz + n + UINT := by
    rw [← Int.add_emod_right, Int.emod_eq_of_lt (by omega) (by omega)]
  rw [hmod, Int.toNat_of_nonneg (by omega)]

/-- `growproc` by more than 0. -/
theorem growproc_pos (h : InStep L d sz s) (hn : 0 < n) (hn' : n < 2147483648) :
    wp E (growproc L d sz n) (Grown L d sz n s) s := by
  have hsz := h.sz_le
  have hadd : (addUint sz n : ℤ) = sz + n := by
    unfold KERNBASE at hsz
    exact addUint_pos (by omega) (by unfold UINT; omega)
  unfold growproc
  rw [if_pos hn, wp_bind]
  refine wp_mono (allocuvm_spec h.own hsz h.below) ?_
  rintro r s' (⟨hlt, rfl, hadds⟩ | ⟨rfl, hkeep, -⟩)
  · have hmax : max sz (addUint sz n) = addUint sz n := by omega
    dsimp only
    rw [hmax, if_neg (by omega)]
    exact ⟨h.adds (by omega) hlt hadds, .inl rfl, fun _ => hadd, nofun⟩
  · dsimp only
    rw [if_pos ⟨by omega, rfl⟩]
    exact ⟨h.keeps hkeep.toKeeps, .inr rfl, nofun, fun _ => ⟨rfl, fun v hv => hkeep.entry v (user_lt hv)⟩⟩

/-- `growproc` by less than 0 that leaves some size, or that finds none. -/
theorem growproc_neg (h : InStep L d sz s) (hn : n < 0) (hn' : -2147483648 ≤ n)
    (hok : -n < sz ∨ sz = 0) : wp E (growproc L d sz n) (Grown L d sz n s) s := by
  have hsz := h.sz_le
  unfold growproc
  rw [if_neg (by omega), if_pos hn, wp_bind]
  refine wp_mono (deallocuvm_spec h.own hsz) ?_
  rintro r s' ⟨rfl, hdrop⟩
  dsimp only
  rcases hok with hlt | hzero
  · have hadd : (addUint sz n : ℤ) = sz + n := by
      unfold KERNBASE at hsz
      exact addUint_pos (by omega) (by unfold UINT; omega)
    have hmin : min sz (addUint sz n) = addUint sz n := by omega
    rw [hmin, if_neg (by omega)]
    exact ⟨h.drops (by omega) hdrop.toDrops, .inl rfl, fun _ => hadd, nofun⟩
  · have hkeep : Keeps d s s' := ⟨hdrop.toChanges, fun v hv => by
      rw [hdrop.entry v hv, if_neg]
      rw [hzero]
      unfold pgs
      omega⟩
    rw [hzero, Nat.zero_min, if_pos ⟨by omega, rfl⟩]
    exact ⟨hzero ▸ h.keeps hkeep, .inr rfl, nofun,
      fun _ => ⟨rfl, fun v hv => hkeep.entry v (user_lt hv)⟩⟩

theorem growproc_zero (h : InStep L d sz s) : wp E (growproc L d sz 0) (Grown L d sz 0 s) s :=
  ⟨h, .inl rfl, fun _ => (Int.add_zero _).symm, nofun⟩

/-- Shrinking by exactly the size frees the pages and reports an error. -/
theorem growproc_all (h : InStep L d sz s) (hsz : 0 < sz) :
    wp E (growproc L d sz (-sz)) (fun r s' => r = (-1, sz) ∧ entry s'.mem d 0 = none) s := by
  have hadd : addUint sz (-sz) = 0 := by
    unfold addUint
    rw [Int.add_right_neg]
    rfl
  unfold growproc
  rw [if_neg (by omega), if_pos (by omega), hadd, wp_bind]
  refine wp_mono (deallocuvm_spec h.own h.sz_le) ?_
  rintro r s' ⟨rfl, hdrop⟩
  dsimp only
  rw [Nat.min_zero, if_pos ⟨by omega, rfl⟩]
  refine ⟨rfl, ?_⟩
  rw [hdrop.entry 0 (by unfold NPAGES; omega), if_pos]
  unfold pgs
  omega

/-- Shrinking by more than the size does nothing and reports success. -/
theorem growproc_wrap (h : InStep L d sz s) (hsz : 0 < sz) (hn : sz < -n)
    (hn' : -2147483648 ≤ n) :
    wp E (growproc L d sz n) (fun r _ => r = (0, sz)) s := by
  have hadd : (addUint sz n : ℤ) = sz + n + UINT := addUint_neg (by omega) (by unfold UINT; omega)
  have hmin : min sz (addUint sz n) = sz := by
    have := h.sz_le
    unfold KERNBASE at this
    unfold UINT at hadd
    omega
  unfold growproc
  rw [if_neg (by omega), if_pos (by omega), wp_bind]
  refine wp_mono (deallocuvm_spec h.own h.sz_le) ?_
  rintro r s' ⟨rfl, -⟩
  dsimp only
  rw [hmin, if_neg (by omega)]
  exact rfl

/-- Frames have only moved between the free list and the process, now of size `sz`: its mappings from
`KERNBASE` on are as they were, and no user page is present above the size. -/
structure Confined (d : Frame) (s : Mem) (sz : ℕ) (s' : Mem) : Prop where
  changes : Changes d s s'
  kernel : ∀ x < NPAGES, NUSER ≤ x → entry s'.mem d x = entry s.mem d x
  size : sz ≤ KERNBASE
  below : Below s'.mem d sz

/-- Whatever the size, `growproc` changes user pages only and leaves none above the size. -/
theorem growproc_confined (h : Own L s (vm s.mem d)) (hsz : sz ≤ KERNBASE)
    (hbelow : Below s.mem d sz) :
    wp E (growproc L d sz n) (fun r s' => Confined d s r.2 s') s := by
  have hmono : ∀ {a b : ℕ}, a ≤ b → pgs a ≤ pgs b := fun hab => by
    unfold pgs
    omega
  unfold growproc
  refine wp_ite (fun hpos => ?_) fun _ => wp_ite (fun hneg => ?_) fun _ => ?_
  · rw [wp_bind]
    refine wp_mono (allocuvm_spec h hsz hbelow) ?_
    rintro r s' (⟨hlt, rfl, hadds⟩ | ⟨rfl, hkeep, -⟩)
    · have hnew := pgs_le (Nat.le_of_lt hlt)
      have hup : ∀ x < NPAGES, NUSER ≤ x → entry s'.mem d x = entry s.mem d x := fun x hx hlo =>
        hadds.old x hx (by omega)
      have habove : Below s'.mem d (max sz (addUint sz n)) := fun x hx hlo => by
        have h1 := hmono (Nat.le_max_left sz (addUint sz n))
        have h2 := hmono (Nat.le_max_right sz (addUint sz n))
        rw [hadds.old x (user_lt hx) (by omega)]
        exact hbelow x hx (by omega)
      refine wp_ite (fun hzero => ?_) fun _ => ?_
      · have hsz0 : sz = max sz (addUint sz n) := by omega
        exact ⟨hadds.toChanges, hup, hsz, hsz0 ▸ habove⟩
      · exact ⟨hadds.toChanges, hup, Nat.max_le.mpr ⟨hsz, Nat.le_of_lt hlt⟩, habove⟩
    · dsimp only
      rw [if_pos ⟨by omega, rfl⟩]
      refine ⟨hkeep.toChanges, fun x hx _ => hkeep.entry x hx, hsz, fun x hx hlo => ?_⟩
      rw [hkeep.entry x (user_lt hx)]
      exact hbelow x hx hlo
  · rw [wp_bind]
    refine wp_mono (deallocuvm_spec h hsz) ?_
    rintro r s' ⟨rfl, hdrop⟩
    have hup : ∀ x < NPAGES, NUSER ≤ x → entry s'.mem d x = entry s.mem d x := fun x hx hlo => by
      rw [hdrop.entry x hx, if_neg]
      have := pgs_le hsz
      omega
    have habove : Below s'.mem d (min sz (addUint sz n)) := fun x hx hlo => by
      rw [hdrop.entry x (user_lt hx)]
      by_cases hin : pgs (addUint sz n) ≤ x ∧ x < pgs sz
      · rw [if_pos hin]
      · rw [if_neg hin]
        refine hbelow x hx ?_
        rcases Nat.le_total sz (addUint sz n) with hle | hle
        · rwa [Nat.min_eq_left hle] at hlo
        · rw [Nat.min_eq_right hle] at hlo
          omega
    refine wp_ite (fun _ => ?_) fun _ => ?_
    · refine ⟨hdrop.toChanges, hup, hsz, fun x hx hlo => habove x hx ?_⟩
      exact (hmono (Nat.min_le_left _ _)).trans hlo
    · exact ⟨hdrop.toChanges, hup, (Nat.min_le_left _ _).trans hsz, habove⟩
  · rw [wp_bind, wp_pure]
    exact wp_ite (fun _ => ⟨.refl, fun _ _ _ => rfl, hsz, hbelow⟩)
      fun _ => ⟨.refl, fun _ _ _ => rfl, hsz, hbelow⟩

/-! ## The calls that leave a process in step -/

/-- The calls after which the process is in step. -/
def SbrkOk (p : ℕ × Mem) (n : ℤ) : Prop :=
  (-2147483648 ≤ n ∧ n < 2147483648) ∧ (0 ≤ n ∨ -n < p.1 ∨ p.1 = 0)

theorem growproc_ok (h : InStep L d sz s) (hok : SbrkOk (sz, s) n) :
    wp E (growproc L d sz n) (Grown L d sz n s) s := by
  obtain ⟨⟨hn, hn'⟩, hok⟩ := hok
  rcases Int.lt_trichotomy 0 n with hpos | rfl | hneg
  · exact growproc_pos h hpos hn'
  · exact growproc_zero h
  · exact growproc_neg h hneg hn (by dsimp only at hok; omega)

/-- `growproc` does what it should exactly when the new size is positive or there was no size to
begin with. -/
theorem growproc_in_step_iff (h : InStep L d sz s) (hn : -2147483648 ≤ n) (hn' : n < 2147483648) :
    wp (fun _ => False) (growproc L d sz n) (Grown L d sz n s) s ↔ 0 ≤ n ∨ -n < sz ∨ sz = 0 := by
  constructor
  · intro hgrown
    by_contra hbad
    push Not at hbad
    obtain ⟨hneg, hge, hpos⟩ := hbad
    rcases Int.lt_or_eq_of_le hge with hlt | heq
    · refine wp_absurd (growproc_wrap h (by omega) hlt hn) hgrown (fun (_ : Fault) (_ : True) => id) ?_
      rintro r s' rfl hr
      have hsize : (sz : ℤ) = sz + n := hr.grown rfl
      omega
    · obtain rfl : n = -sz := by omega
      refine wp_absurd (growproc_all h (by omega)) hgrown (fun (_ : Fault) (_ : True) => id) ?_
      rintro r s' ⟨rfl, hgone⟩ hr
      have hkept := (hr.failed rfl).2 0 (by unfold NUSER; omega)
      have hthere := ((h.pages 0).mpr (by unfold pgs; omega)).2
      rw [← hkept, hgone] at hthere
      cases hthere
  · intro hok
    exact growproc_ok h ⟨⟨hn, hn'⟩, hok⟩

/-! ## Any sequence of calls -/

/-- A call of `sbrk` as a step on the size of the process and memory. -/
def sbrkStep (L : Layout) (d : Frame) (p : ℕ × Mem) (n : ℤ) : Option (ℕ × Mem) :=
  match sys_sbrk L d p.1 n p.2 with
  | .ok ((_, sz), s) => some (sz, s)
  | .error _ => none

theorem sys_sbrk_confined (h : Own L s (vm s.mem d)) (hsz : sz ≤ KERNBASE)
    (hbelow : Below s.mem d sz) :
    wp E (sys_sbrk L d sz n) (fun r s' => Confined d s r.2 s') s := by
  unfold sys_sbrk
  rw [wp_bind]
  refine wp_mono (growproc_confined h hsz hbelow) ?_
  rintro ⟨r, sz'⟩ s' hc
  exact wp_ite (fun _ => hc) fun _ => hc

/-- Whatever a process asks `sbrk` for in a sequence of calls, and wherever `kalloc` fails, every call
returns and the process stays confined. -/
theorem sbrk_confined (h : Own L s (vm s.mem d)) (hsz : sz ≤ KERNBASE) (hbelow : Below s.mem d sz)
    (ns : List ℤ) : ∃ p, run (sbrkStep L d) (sz, s) ns = some p ∧ Own L p.2 (vm p.2.mem d) ∧
      Confined d s p.1 p.2 := by
  induction ns generalizing sz s with
  | nil => exact ⟨(sz, s), rfl, h, .refl, fun _ _ _ => rfl, hsz, hbelow⟩
  | cons n ns ih =>
    obtain ⟨r, s', hcall, hc⟩ := wp_returns (sys_sbrk_confined (n := n) h hsz hbelow)
    have hstep : sbrkStep L d (sz, s) n = some (r.2, s') := by rw [sbrkStep, hcall]
    obtain ⟨p, hrun, hown, hp⟩ := ih (h.moves' hc.changes.moves) hc.size hc.below
    refine ⟨p, run_cons_eq_some.mpr ⟨_, hstep, hrun⟩, hown, hc.changes.trans hp.changes,
      fun x hx hlo => ?_, hp.size, hp.below⟩
    rw [hp.kernel x hx hlo, hc.kernel x hx hlo]

/-! ## A process with one page -/

def smallKernel : Layout :=
  ⟨0x80108000, 0x80118000, by decide, by decide, by decide, by decide, by decide⟩

/-- One user page in frame `0x1002`, with the directory in `0x1000` and its only page table in
`0x1001`. -/
def onePage : Mem where
  mem := setEntry (addTable (fun _ _ => 0) 0x1000 0x1001 0) 0x1001 0
    (mkPte 0x1002 (PTE_W ||| PTE_U ||| PTE_P))
  freelist := []
  fails := []

theorem onePage_tables :
    tables (addTable (fun _ _ => 0) 0x1000 0x1001 0) 0x1000 = {0x1000} + {0x1001} := by
  rw [tables_addTable (by decide) (by unfold NPDENTRIES; omega) (tab_zeroed rfl _), tables_zeroed rfl]

theorem onePage_tables_nodup :
    (tables (addTable (fun _ _ => 0) 0x1000 0x1001 0) 0x1000).Nodup := by
  rw [onePage_tables]
  decide

theorem onePage_tab :
    tab (addTable (fun _ _ => 0) 0x1000 0x1001 0) 0x1000 (0 / 1024) = some 0x1001 :=
  tab_addTable (by decide) 0

theorem onePage_entry {x : ℕ} (hx : x < NPAGES) : entry onePage.mem 0x1000 x =
    if x = 0 then some (mkPte 0x1002 (PTE_W ||| PTE_U ||| PTE_P)) else none := by
  have hnew : entry (addTable (fun _ _ => 0) 0x1000 0x1001 0) 0x1000 x = none := by
    rw [entry_addTable _ _ (tab_zeroed rfl _) hx, entry_of_no_tab (tab_zeroed rfl _)]
    · rw [tables_zeroed rfl]
      decide
    · rw [tables_zeroed rfl]
      decide
  refine (entry_setEntry (v := 0) onePage_tables_nodup (by unfold NPAGES; omega) onePage_tab
    hx).trans ?_
  rw [hnew, present_mkPte, if_pos rfl]

theorem onePage_vm : vm onePage.mem 0x1000 = {0x1000} + {0x1001} + {0x1002} := by
  have htables : tables onePage.mem 0x1000 = {0x1000} + {0x1001} :=
    (tables_setEntry onePage_tables_nodup (div_lt_of_page (by unfold NPAGES; omega))
      onePage_tab).trans onePage_tables
  have hnone : ∀ v, entry (fun _ _ => 0) (0x1000 : Frame) v = none := fun v =>
    entry_of_no_tab (tab_zeroed rfl _)
  have hother : ∀ v < NUSER, v ≠ 0 →
      entry onePage.mem 0x1000 v = entry (fun _ _ => 0) 0x1000 v := fun v hv hne => by
    rw [onePage_entry (user_lt hv), if_neg hne, hnone]
  have hempty : pages (fun _ _ => 0) 0x1000 = 0 := collect_none fun v _ => by rw [hnone]; rfl
  have hpages := pages_add_single (v := 0) (by unfold NUSER; omega) hother
  rw [hnone, onePage_entry (by unfold NPAGES; omega), if_pos rfl, hempty, Option.map_none,
    single_none, add_zero, zero_add, Option.map_some, PTE_ADDR_mkPte, single_some] at hpages
  unfold vm
  rw [htables, hpages]

theorem onePage_inStep : InStep smallKernel 0x1000 4096 onePage := by
  refine ⟨?_, fun v => ?_⟩
  · rw [onePage_vm]
    refine ⟨by decide, fun f hf => ?_⟩
    have hcases : f = 0x1000 ∨ f = 0x1001 ∨ f = 0x1002 := by
      simpa [onePage] using hf
    rcases hcases with rfl | rfl | rfl <;> exact ⟨by decide, by decide⟩
  · have hpgs : v < pgs 4096 ↔ v = 0 := by unfold pgs; omega
    rw [hpgs]
    constructor
    · rintro ⟨hv, hsome⟩
      by_contra hne
      rw [onePage_entry (user_lt hv), if_neg hne] at hsome
      cases hsome
    · rintro rfl
      rw [onePage_entry (by unfold NPAGES; omega)]
      exact ⟨by unfold NUSER; omega, rfl⟩

/-- It gives its page back, and asks for two. -/
theorem sbrk_confined_onePage :
    ∃ p, run (sbrkStep smallKernel 0x1000) (4096, onePage) [-4096, 8192] = some p ∧
      Confined 0x1000 onePage p.1 p.2 := by
  obtain ⟨p, hrun, -, hp⟩ :=
    sbrk_confined onePage_inStep.own onePage_inStep.sz_le onePage_inStep.below [-4096, 8192]
  exact ⟨p, hrun, hp⟩

/-- Shrinking it by a byte is in order. -/
theorem growproc_in_step_iff_onePage :
    wp (fun _ => False) (growproc smallKernel 0x1000 4096 (-1))
      (Grown smallKernel 0x1000 4096 (-1) onePage) onePage :=
  (growproc_in_step_iff onePage_inStep (by decide) (by decide)).mpr (by decide)

/-- `sbrk(-4096)` returns -1 and leaves the size, but the page is gone. -/
theorem sbrk_frees_and_fails : InStep smallKernel 0x1000 4096 onePage ∧
    wp (fun _ => False) (growproc smallKernel 0x1000 4096 (-4096)) (fun r s' =>
      r = (-1, 4096) ∧ (entry onePage.mem 0x1000 0).isSome ∧ entry s'.mem 0x1000 0 = none)
      onePage := by
  refine ⟨onePage_inStep, wp_mono (growproc_all onePage_inStep (by decide)) ?_⟩
  rintro r s' ⟨hr, hgone⟩
  exact ⟨hr, ((onePage_inStep.pages 0).mpr (by decide)).2, hgone⟩

end DuckoUnix.Vm
