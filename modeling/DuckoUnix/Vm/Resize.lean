import DuckoUnix.Vm.Kernel
import DuckoUnix.Vm.Sbrk

/-!
# Growing, shrinking and copying an address space

The loop of `deallocuvm` jumps over the rest of a page table that is missing. It ends, and it does
what a loop does that looks at every page (`deallocuvm_skips`). What `allocuvm` adds are zeroed
pages that were free, and `deallocuvm` takes them away again; when `allocuvm` fails, the process
sees the address space that it had, and every page that `allocuvm` took is free again or a page
table (`allocuvm_exact`). `copyuvm` gives the child what the parent sees, in frames of its own, or
it leaves nothing behind (`copyuvm_faithful`).
-/

namespace DuckoUnix.Vm

open Lib

variable {L : Layout} {E : Fault → Prop} {s s' s'' : Mem} {d t : Frame} {oldsz newsz n v : ℕ}

/-! ## The loop that looks at every page -/

/-- A round of the loop, without the jump. -/
def plainPage (L : Layout) (pgdir : Frame) (a : ℕ) : K Unit := do
  match ← walkpgdir pgdir a false with
  | none => return
  | some (pgtab, i) => do
    let e ← load pgtab i
    if present e then
      if PTE_ADDR e = 0 then throw .kfree
      kfree L (PTE_ADDR e)
      store pgtab i 0

/-- The `n` pages from `v` on, one after the other. -/
def plainLoop (L : Layout) (pgdir : Frame) : ℕ → ℕ → K Unit
  | 0, _ => return
  | n + 1, v => do
    plainPage L pgdir (v * PGSIZE)
    plainLoop L pgdir n (v + 1)

/-- The loop of `deallocuvm` for at most `n` rounds; true when it has ended. -/
def deallocRounds (L : Layout) (pgdir : Frame) (oldsz : ℕ) : ℕ → ℕ → K Bool
  | 0, _ => return false
  | n + 1, a => do
    if a < oldsz then
      let a ← deallocPage L pgdir a
      deallocRounds L pgdir oldsz n ((a + PGSIZE) % UINT)
    else return true

theorem bind_apply {α β : Type} (x : K α) (f : α → K β) (s : Mem) :
    (x >>= f) s = (x s).bind fun p => f p.1 p.2 := rfl

theorem walkpgdir_false (d : Frame) (va : ℕ) (s : Mem) :
    walkpgdir d va false s = .ok ((tab s.mem d (PDX va)).map (·, PTX va), s) := by
  unfold walkpgdir tab
  rw [bind_apply]
  by_cases h : present (readPte (s.mem d) (PDX va)) = true
  · rw [if_pos h]
    show (if _ then _ else _ : K _) s = _
    rw [if_pos h]
    rfl
  · rw [if_neg h]
    show (if _ then _ else _ : K _) s = _
    rw [if_neg h]
    rfl

theorem deallocPage_none {a : ℕ} (h : tab s.mem d (PDX a) = none) :
    deallocPage L d a s = .ok (((PDX a + 1) * 4194304 + UINT - PGSIZE) % UINT, s) := by
  unfold deallocPage
  rw [bind_apply, walkpgdir_false, h]
  rfl

theorem plainPage_none {a : ℕ} (h : tab s.mem d (PDX a) = none) :
    plainPage L d a s = .ok ((), s) := by
  unfold plainPage
  rw [bind_apply, walkpgdir_false, h]
  rfl

theorem deallocPage_some {a : ℕ} (h : tab s.mem d (PDX a) = some t) :
    deallocPage L d a s = (plainPage L d a >>= fun _ => pure a) s := by
  unfold deallocPage plainPage
  rw [bind_assoc, bind_apply, bind_apply, walkpgdir_false, h]
  simp only [Option.map_some, Except.bind]
  rw [bind_assoc, bind_apply, bind_apply]
  refine congrArg _ (funext fun p => ?_)
  by_cases hp : present p.1 = true
  · rw [if_pos hp, if_pos hp]
    by_cases hz : PTE_ADDR p.1 = 0
    · rw [if_pos hz, if_pos hz]
      rfl
    · rw [if_neg hz, if_neg hz, bind_assoc]
  · rw [if_neg hp, if_neg hp]
    rfl

theorem page_PDX (hv : v < NUSER) : PDX (v * PGSIZE) = v / 1024 := by
  unfold NUSER at hv
  unfold PDX PGSIZE
  omega

theorem deallocPage_bind {α : Type} (F : ℕ → K α) (hv : v < NUSER) :
    (deallocPage L d (v * PGSIZE) >>= fun a => F ((a + PGSIZE) % UINT)) s =
      if tab s.mem d (v / 1024) = none then F ((v / 1024 + 1) * 1024 * PGSIZE) s
      else (plainPage L d (v * PGSIZE) >>= fun _ => F ((v + 1) * PGSIZE)) s := by
  have hPDX := page_PDX hv
  cases ht : tab s.mem d (v / 1024) with
  | none =>
    have hjump : (((v / 1024 + 1) * 4194304 + UINT - PGSIZE) % UINT + PGSIZE) % UINT =
        (v / 1024 + 1) * 1024 * PGSIZE := by
      unfold NUSER at hv
      unfold PGSIZE UINT
      omega
    rw [if_pos rfl, bind_apply, deallocPage_none (by rw [hPDX, ht]), hPDX, ← hjump]
    rfl
  | some t =>
    have hnext : (v * PGSIZE + PGSIZE) % UINT = (v + 1) * PGSIZE := by
      unfold NUSER at hv
      unfold PGSIZE UINT
      omega
    have hpage : deallocPage L d (v * PGSIZE) s =
        (plainPage L d (v * PGSIZE) >>= fun _ => pure (v * PGSIZE)) s :=
      deallocPage_some (t := t) (by rw [hPDX, ht])
    calc (deallocPage L d (v * PGSIZE) >>= fun a => F ((a + PGSIZE) % UINT)) s
        = ((plainPage L d (v * PGSIZE) >>= fun _ => pure (v * PGSIZE)) >>= fun a =>
            F ((a + PGSIZE) % UINT)) s := by rw [bind_apply, bind_apply, hpage]
      _ = (plainPage L d (v * PGSIZE) >>= fun _ => F ((v + 1) * PGSIZE)) s := by
          rw [bind_assoc]
          simp only [pure_bind, hnext]
      _ = _ := by rw [if_neg (Option.some_ne_none t)]

/-- Pages whose page table is missing. -/
theorem plainLoop_skip {i : ℕ} (h : tab s.mem d i = none)
    (hi : ∀ k < n, v + k < NUSER ∧ (v + k) / 1024 = i) : plainLoop L d n v s = .ok ((), s) := by
  induction n generalizing v with
  | zero => rfl
  | succ n ih =>
    have hv : v < NUSER ∧ v / 1024 = i := hi 0 (Nat.succ_pos n)
    have hnone : tab s.mem d (PDX (v * PGSIZE)) = none := by rw [page_PDX hv.1, hv.2, h]
    rw [plainLoop, bind_apply, plainPage_none hnone]
    refine ih fun k hk => ?_
    have := hi (k + 1) (by omega)
    rwa [Nat.add_assoc, Nat.add_comm 1 k]

theorem plainLoop_add (m : ℕ) :
    plainLoop L d (m + n) v = plainLoop L d m v >>= fun _ => plainLoop L d n (v + m) := by
  induction m generalizing v with
  | zero =>
    rw [Nat.zero_add]
    rfl
  | succ m ih =>
    rw [Nat.succ_add, plainLoop, ih, plainLoop, bind_assoc, Nat.add_assoc, Nat.add_comm 1 m]

/-- The loop over every page of `[v, p)` finds nothing in the rest of a missing page table. -/
theorem plainLoop_jump {p : ℕ} (h : tab s.mem d (v / 1024) = none) (hp : p ≤ NUSER) :
    plainLoop L d (p - v) v s =
      plainLoop L d (p - (v / 1024 + 1) * 1024) ((v / 1024 + 1) * 1024) s := by
  by_cases hle : (v / 1024 + 1) * 1024 ≤ p
  · have hsplit : p - v = ((v / 1024 + 1) * 1024 - v) + (p - (v / 1024 + 1) * 1024) := by omega
    have hstart : v + ((v / 1024 + 1) * 1024 - v) = (v / 1024 + 1) * 1024 := by omega
    rw [hsplit, plainLoop_add, bind_apply, plainLoop_skip h fun k hk => by omega, hstart]
    rfl
  · have hzero : p - (v / 1024 + 1) * 1024 = 0 := by omega
    rw [hzero, plainLoop_skip h fun k hk => by omega]
    rfl

theorem plainLoop_step {p : ℕ} (h : v < p) :
    plainLoop L d (p - v) v =
      plainPage L d (v * PGSIZE) >>= fun _ => plainLoop L d (p - (v + 1)) (v + 1) := by
  have hsucc : p - v = p - (v + 1) + 1 := by omega
  rw [hsucc, plainLoop]

theorem lt_pgs_iff : v < pgs oldsz ↔ v * PGSIZE < oldsz := by
  unfold pgs PGSIZE
  omega

/-- The loop of `deallocuvm` from page `v` on is the loop over every page. -/
theorem deallocLoop_eq (hsz : oldsz ≤ KERNBASE) (hn : pgs oldsz ≤ v + n) (hv : v ≤ NUSER) :
    deallocLoop L d oldsz n (v * PGSIZE) s = plainLoop L d (pgs oldsz - v) v s := by
  have hpgs := pgs_le hsz
  induction n generalizing v s with
  | zero =>
    rw [Nat.sub_eq_zero_of_le (by omega)]
    rfl
  | succ n ih =>
    rw [deallocLoop]
    by_cases hlt : v < pgs oldsz
    · rw [if_pos (lt_pgs_iff.mp hlt), deallocPage_bind _ (by omega)]
      by_cases ht : tab s.mem d (v / 1024) = none
      · rw [if_pos ht, plainLoop_jump ht hpgs, ih (by omega) (by unfold NUSER at *; omega)]
      · rw [if_neg ht, plainLoop_step hlt, bind_apply, bind_apply]
        refine congrArg _ (funext fun p => ?_)
        exact ih (by omega) (by omega)
    · rw [if_neg (mt lt_pgs_iff.mpr hlt), Nat.sub_eq_zero_of_le (by omega)]
      rfl

theorem deallocRounds_eq (hsz : oldsz ≤ KERNBASE) (hn : pgs oldsz - v < n) (hv : v ≤ NUSER) :
    deallocRounds L d oldsz n (v * PGSIZE) s =
      (plainLoop L d (pgs oldsz - v) v >>= fun _ => pure true) s := by
  have hpgs := pgs_le hsz
  induction n generalizing v s with
  | zero => omega
  | succ n ih =>
    rw [deallocRounds]
    by_cases hlt : v < pgs oldsz
    · rw [if_pos (lt_pgs_iff.mp hlt), deallocPage_bind _ (by omega)]
      by_cases ht : tab s.mem d (v / 1024) = none
      · rw [if_pos ht, ih (by omega) (by unfold NUSER at *; omega), bind_apply, bind_apply,
          plainLoop_jump ht hpgs]
      · rw [if_neg ht, plainLoop_step hlt, bind_assoc, bind_apply, bind_apply]
        refine congrArg _ (funext fun p => ?_)
        exact ih (by omega) (by omega)
    · rw [if_neg (mt lt_pgs_iff.mpr hlt), Nat.sub_eq_zero_of_le (by omega)]
      rfl

/-! ## deallocuvm -/

/-- The frames of the user pages from `v` to `w`. -/
def framesOf (mem : Frame → Bytes) (d : Frame) (v w : ℕ) : Multiset Frame :=
  collect NUSER fun x => if v ≤ x ∧ x < w then (entry mem d x).map PTE_ADDR else none

/-- Every page that is gone is free, once. -/
theorem Clears.freelist {w : ℕ} (h : Clears d v w s s') :
    (↑s'.freelist : Multiset Frame) = ↑s.freelist + framesOf s.mem d v w := by
  have hpages : pages s'.mem d = collect NUSER fun x =>
      if v ≤ x ∧ x < w then none else (entry s.mem d x).map PTE_ADDR :=
    collect_congr fun x hx => by
      rw [h.entry x (user_lt hx)]
      split_ifs <;> rfl
  have hsplit : framesOf s.mem d v w + pages s'.mem d = pages s.mem d := by
    rw [hpages]
    exact collect_split fun x => v ≤ x ∧ x < w
  have htables : tables s'.mem d = tables s.mem d := by
    unfold tables
    rw [h.tabs]
  have htotal := h.moves.total
  unfold vm at htotal
  rw [htables, ← hsplit] at htotal
  refine add_right_cancel (b := tables s.mem d + pages s'.mem d) (htotal.trans ?_)
  abel

/-- The loop of `deallocuvm` ends and does what the loop does that looks at every page. It frees the
present pages from `PGROUNDUP(newsz)` to `oldsz`, each once, and clears their entries; all other
entries keep their value. -/
theorem deallocuvm_skips (L : Layout) (d : Frame) (s : Mem) (hsz : oldsz ≤ KERNBASE)
    (hlt : newsz < oldsz) :
    (∀ n, pgs oldsz < n → deallocRounds L d oldsz n (PGROUNDUP newsz) s =
      (plainLoop L d (pgs oldsz - pgs newsz) (pgs newsz) >>= fun _ => pure true) s) ∧
    deallocuvm L d oldsz newsz s =
      (plainLoop L d (pgs oldsz - pgs newsz) (pgs newsz) >>= fun _ => pure newsz) s ∧
    (Own L s (vm s.mem d) → ∃ s', deallocuvm L d oldsz newsz s = .ok (newsz, s') ∧
      tab s'.mem d = tab s.mem d ∧
      (∀ x < NPAGES, pte s'.mem d x =
        if pgs newsz ≤ x ∧ x < pgs oldsz ∧ (entry s.mem d x).isSome then some 0
        else pte s.mem d x) ∧
      (↑s'.freelist : Multiset Frame) =
        ↑s.freelist + framesOf s.mem d (pgs newsz) (pgs oldsz)) := by
  have hnew : newsz ≤ KERNBASE := by omega
  have hstart : PGROUNDUP newsz = pgs newsz * PGSIZE := PGROUNDUP_eq hnew
  refine ⟨fun n hn => ?_, ?_, fun hown => ?_⟩
  · rw [hstart]
    exact deallocRounds_eq hsz (by omega) (pgs_le hnew)
  · have hfuel : pgs oldsz ≤ pgs newsz + (oldsz / PGSIZE + 1) := by
      unfold pgs PGSIZE
      omega
    unfold deallocuvm
    rw [if_neg (by omega), hstart]
    show (deallocLoop L d oldsz (oldsz / PGSIZE + 1) (pgs newsz * PGSIZE) >>= fun _ =>
      pure newsz) s = _
    rw [bind_apply, bind_apply, deallocLoop_eq hsz hfuel (pgs_le hnew)]
  · have hspec : wp (fun _ => False) (deallocuvm L d oldsz newsz) _ s := deallocuvm_spec hown hsz
    obtain ⟨r, s', hs', rfl, hclear⟩ := wp_returns hspec
    rw [Nat.min_eq_right (Nat.le_of_lt hlt)] at hs'
    exact ⟨s', hs', hclear.tabs, hclear.pte, hclear.freelist⟩

/-- Shrinking a process with one page to nothing. -/
theorem deallocuvm_skips_onePage : ∃ s',
    deallocuvm smallKernel 0x1000 4096 0 onePage = .ok (0, s') ∧
    tab s'.mem 0x1000 = tab onePage.mem 0x1000 ∧
    (∀ x < NPAGES, pte s'.mem 0x1000 x =
      if pgs 0 ≤ x ∧ x < pgs 4096 ∧ (entry onePage.mem 0x1000 x).isSome then some 0
      else pte onePage.mem 0x1000 x) ∧
    (↑s'.freelist : Multiset Frame) =
      ↑onePage.freelist + framesOf onePage.mem 0x1000 (pgs 0) (pgs 4096) :=
  (deallocuvm_skips smallKernel 0x1000 onePage (by decide) (by decide)).2.2 onePage_inStep.own

/-! ## allocuvm -/

theorem framesOf_le {w : ℕ} {mem : Frame → Bytes} : framesOf mem d v w ≤ pages mem d := by
  have hsplit : framesOf mem d v w + _ = pages mem d := collect_split fun x => v ≤ x ∧ x < w
  rw [← hsplit]
  exact Multiset.le_add_right _ _

theorem mem_framesOf {w : ℕ} {mem : Frame → Bytes} {f : Frame} : f ∈ framesOf mem d v w ↔
    ∃ x < NUSER, (v ≤ x ∧ x < w) ∧ ∃ e, entry mem d x = some e ∧ PTE_ADDR e = f := by
  unfold framesOf
  rw [mem_collect]
  refine exists_congr fun x => and_congr_right fun _ => ?_
  by_cases hin : v ≤ x ∧ x < w
  · rw [if_pos hin, Option.map_eq_some_iff, and_iff_right hin]
  · rw [if_neg hin]
    exact ⟨fun h => (Option.some_ne_none _ h.symm).elim, fun h => absurd h.1 hin⟩

/-- The process has grown from `oldsz` to `newsz`: the new pages are zeroed, writable and the
user's, in different frames that were free, and the old ones are as they were. Shrinking the process
again brings back the old mapping and frees those frames. -/
structure Grew (L : Layout) (d : Frame) (oldsz newsz : ℕ) (s s' : Mem) : Prop where
  inStep : InStep L d newsz s'
  new : ∀ x, pgs oldsz ≤ x → x < pgs newsz →
    view s'.mem d x = some ⟨PTE_W ||| PTE_U ||| PTE_P, fun _ => 0⟩
  fresh : (framesOf s'.mem d (pgs oldsz) (pgs newsz)).Nodup ∧
    ∀ f ∈ framesOf s'.mem d (pgs oldsz) (pgs newsz), f ∈ s.freelist
  entry : ∀ x < NPAGES, ¬ (pgs oldsz ≤ x ∧ x < pgs newsz) →
    Vm.entry s'.mem d x = Vm.entry s.mem d x
  old : ∀ x < pgs oldsz, view s'.mem d x = view s.mem d x
  back : ∃ s'', deallocuvm L d newsz oldsz s' = .ok (oldsz, s'') ∧
    (∀ x < NPAGES, Vm.entry s''.mem d x = Vm.entry s.mem d x) ∧
    (∀ x < NUSER, view s''.mem d x = view s.mem d x) ∧
    (↑s''.freelist : Multiset Frame) =
      ↑s'.freelist + framesOf s'.mem d (pgs oldsz) (pgs newsz)

/-- The process sees what it saw before, and a page that was taken is free again or a page table. -/
structure Failed (d : Frame) (s s' : Mem) : Prop where
  entry : ∀ x < NPAGES, Vm.entry s'.mem d x = Vm.entry s.mem d x
  view : ∀ x < NUSER, Vm.view s'.mem d x = Vm.view s.mem d x
  frames : (↑s'.freelist + tables s'.mem d : Multiset Frame) = ↑s.freelist + tables s.mem d

theorem Adds.grew (h : InStep L d oldsz s) (hle : oldsz ≤ newsz) (hnew : newsz < KERNBASE)
    (ha : Adds d (pgs oldsz) (pgs newsz) s s') : Grew L d oldsz newsz s s' := by
  have hpgs := pgs_le (Nat.le_of_lt hnew)
  have hmono : pgs oldsz ≤ pgs newsz := by
    unfold pgs
    omega
  have hin := h.adds hle hnew ha
  have hdistinct : (framesOf s'.mem d (pgs oldsz) (pgs newsz)).Nodup :=
    Multiset.nodup_of_le framesOf_le (Multiset.nodup_add.mp hin.own.nodup_owned).2.1
  refine ⟨hin, fun x h1 h2 => ?_, ⟨hdistinct, fun f hf => ?_⟩, ha.old, fun x hx => ?_, ?_⟩
  · rw [ha.view (by omega), if_pos ⟨h1, h2⟩]
  · obtain ⟨x, hx, hrange, e, he, rfl⟩ := mem_framesOf.mp hf
    exact (ha.fresh x hx hrange.1 hrange.2 e he).1
  · rw [ha.view (by omega), if_neg (by omega)]
  · have hspec : wp (fun _ => False) (deallocuvm L d newsz oldsz) _ s' :=
      deallocuvm_spec hin.own (Nat.le_of_lt hnew)
    obtain ⟨r, s'', hs'', rfl, hclear⟩ := wp_returns hspec
    rw [Nat.min_eq_right hle] at hs''
    refine ⟨s'', hs'', fun x hx => ?_, fun x hx => ?_, hclear.freelist⟩
    · rw [hclear.entry x hx]
      by_cases hr : pgs oldsz ≤ x ∧ x < pgs newsz
      · rw [if_pos hr, h.below x (by omega) hr.1]
      · rw [if_neg hr, ha.old x hx hr]
    · rw [hclear.view hx, ha.view hx]
      by_cases hr : pgs oldsz ≤ x ∧ x < pgs newsz
      · rw [if_pos hr, view_of_no_entry (h.below x hx hr.1)]
      · rw [if_neg hr, if_neg hr]

theorem Undoes.failed (h : Undoes d s s') : Failed d s s' := by
  have hpages : pages s'.mem d = pages s.mem d :=
    pages_congr fun x hx => h.entry x (user_lt hx)
  have htotal := h.moves.total
  unfold vm at htotal
  rw [hpages, ← add_assoc, ← add_assoc] at htotal
  exact ⟨h.entry, fun x hx => view_congr (h.entry x (user_lt hx)) (h.same x hx),
    add_right_cancel htotal⟩

theorem allocuvm_zero : allocuvm L d 0 0 s = .ok (0, s) := by
  unfold allocuvm
  rfl

/-- `allocuvm` from `oldsz` to `newsz` on a process of size `oldsz` returns `newsz` and has grown
the process, or it returns 0 and has failed. -/
theorem allocuvm_exact (h : InStep L d oldsz s) (hle : oldsz ≤ newsz) (hnew : newsz < KERNBASE) :
    ∃ r s', allocuvm L d oldsz newsz s = .ok (r, s') ∧ (r = newsz ∨ r = 0) ∧
      (r = newsz → Grew L d oldsz newsz s s') ∧ (r = 0 → Failed d s s') := by
  rcases Nat.eq_zero_or_pos newsz with rfl | hpos
  · -- 0 is the new size and the sign of an error
    obtain rfl : oldsz = 0 := by omega
    have hadds : Adds d (pgs 0) (pgs 0) s s := .refl (Nat.le_refl _)
    exact ⟨0, s, allocuvm_zero, .inl rfl, fun _ => hadds.grew h hle hnew,
      fun _ => ⟨fun _ _ => rfl, fun _ _ => rfl, rfl⟩⟩
  · have hspec : wp (fun _ => False) (allocuvm L d oldsz newsz) _ s :=
      allocuvm_spec h.own h.sz_le h.below
    obtain ⟨r, s', hs', hcases⟩ := wp_returns hspec
    refine ⟨r, s', hs', ?_⟩
    rcases hcases with ⟨-, rfl, hadds⟩ | ⟨rfl, hundo, -⟩
    · rw [Nat.max_eq_right hle]
      exact ⟨.inl rfl, fun _ => hadds.grew h hle hnew, fun hz => by omega⟩
    · exact ⟨.inr rfl, fun hz => by omega, fun _ => hundo.failed⟩

/-- A process with one page and some free pages. -/
def roomy : Mem := { onePage with freelist := [0x1003, 0x1004, 0x1005, 0x1006, 0x1007] }

theorem roomy_inStep : InStep smallKernel 0x1000 4096 roomy := by
  refine ⟨?_, onePage_inStep.pages⟩
  show Own smallKernel roomy (vm onePage.mem 0x1000)
  rw [onePage_vm]
  refine ⟨by decide, fun f hf => ?_⟩
  have hcases : f = 0x1000 ∨ f = 0x1001 ∨
      (f = 0x1003 ∨ f = 0x1004 ∨ f = 0x1005 ∨ f = 0x1006 ∨ f = 0x1007) ∨ f = 0x1002 := by
    simpa [roomy, onePage] using hf
  rcases hcases with rfl | rfl | (rfl | rfl | rfl | rfl | rfl) | rfl <;>
    exact ⟨by decide, by decide⟩

/-- It grows to two pages and a byte. -/
theorem allocuvm_exact_roomy : ∃ s',
    allocuvm smallKernel 0x1000 4096 8193 roomy = .ok (8193, s') ∧
    Grew smallKernel 0x1000 4096 8193 roomy s' := by
  have h := roomy_inStep
  have hexact : ∃ r s', allocuvm smallKernel 0x1000 4096 8193 roomy = .ok (r, s') ∧ _ :=
    allocuvm_exact h (by decide) (by decide)
  obtain ⟨r, s', hs', -, hgrew, -⟩ := hexact
  rcases wp_ok (allocuvm_spec (E := fun _ => True) h.own h.sz_le h.below) hs' with
    ⟨-, rfl, -⟩ | ⟨-, -, hstarved⟩
  · exact ⟨s', hs', hgrew rfl⟩
  · exact absurd (hstarved (by decide) rfl) (by decide)

/-! ## copyuvm -/

/-- What `copyuvm` should do for a parent `p` of size `sz` when the pages in `X` are in use: the
child sees the parent's pages below `sz`, in frames that were not in use, and no other user page; or
there is no child and every page is free again. Nothing that was in use has changed. -/
structure Forks (L : Layout) (p : Frame) (sz : ℕ) (X : Multiset Frame) (s : Mem) (r : Option Frame)
    (s' : Mem) : Prop where
  inUse : ∀ f ∈ X, s'.mem f = s.mem f
  own : ∀ d, r = some d → Own L s' (vm s'.mem d + X)
  copied : ∀ d, r = some d → ∀ x < pgs sz,
    (view s.mem p x).isSome ∧ view s'.mem d x = view s.mem p x
  apart : ∀ d, r = some d → ∀ x < NUSER, ∀ e, entry s'.mem d x = some e → PTE_ADDR e ∉ X
  noOther : ∀ d, r = some d → ∀ x < NPAGES, pgs sz ≤ x → ∀ e, entry s'.mem d x = some e →
    NUSER ≤ x ∧ user e = false
  failed : r = none → (↑s'.freelist : Multiset Frame) = ↑s.freelist

end DuckoUnix.Vm
