import DuckoUnix.Exec.Load

/-!
# The image that exec makes

`loadImage` either takes nothing or returns a page directory of its own, whose user pages are
exactly those below the new size; all of them are for the user but the guard page below the stack.
The segments of the file are in memory as their headers say, and a file whose headers or segments
are not in order is not executed (`exec_loads_exactly`).
-/

namespace DuckoUnix.Exec

open Lib Vm

variable {L : Layout} {E : Fault → Prop} {s s' s'' : Mem} {d t f : Frame} {sz : ℕ} {ip : File}

/-! ## The guard page and the stack page -/

/-- An image ready for its arguments. -/
structure Ready (L : Layout) (d : Frame) (sz : ℕ) (s : Mem) : Prop extends InStep L d sz s where
  kern : Kern s.mem d
  lt : sz < KERNBASE
  aligned : sz % 4096 = 0
  room : 8192 ≤ sz
  stack : ∀ e, entry s.mem d (sz / 4096 - 1) = some e → user e = true
  guard : ∀ e, entry s.mem d (sz / 4096 - 2) = some e → user e = false

theorem clearpteu_spec {x : ℕ} {e : BitVec 32} (hown : Own L s (vm s.mem d)) (hx : x < NUSER)
    (he : entry s.mem d x = some e) :
    wp E (clearpteu d (x * 4096)) (fun _ s' => Changes d s s' ∧ (∀ y < NPAGES,
      entry s'.mem d y = if y = x then some (clearU e) else entry s.mem d y) ∧
      ∀ y < NUSER, y ≠ x → view s'.mem d y = view s.mem d y) s := by
  have hlt := user_lt hx
  have hva := page_addr_lt hlt
  obtain ⟨t, ht, hread⟩ := walk_present (x := x) hva (by omega) he
  unfold clearpteu
  rw [wp_bind, wp_walkpgdir_false, ht, Option.map_some, wp_bind, wp_load]
  rw [hread, wp_store]
  have hPDX : PDX (x * 4096) = x / 1024 := by rw [PDX_eq hva]; omega
  have hPTX : PTX (x * 4096) = x % 1024 := by rw [PTX_eq]; omega
  rw [hPDX] at ht
  rw [hPTX]
  have hn := tables_nodup hown
  have hdir := div_lt_of_page hlt
  have hentry : ∀ y < NPAGES, entry (setEntry s.mem t (x % 1024) (clearU e)) d y =
      if y = x then some (clearU e) else entry s.mem d y := fun y hy => by
    rw [entry_setEntry hn hlt ht hy, present_clearU, present_of_entry he, if_pos rfl]
  have hpages : pages (setEntry s.mem t (x % 1024) (clearU e)) d = pages s.mem d :=
    collect_congr fun y hy => by
      rw [hentry y (user_lt hy)]
      by_cases hyx : y = x
      · rw [if_pos hyx, hyx, he, Option.map_some, Option.map_some, PTE_ADDR_clearU]
      · rw [if_neg hyx]
  have hgrow : Grows d (fun _ => False) s { s with mem := setEntry s.mem t (x % 1024) (clearU e) } :=
    .setEntry hn hdir ht
  -- the page table is no user page
  have hview : ∀ y < NUSER, y ≠ x →
      view (setEntry s.mem t (x % 1024) (clearU e)) d y = view s.mem d y := fun y hy hne => by
    refine view_congr (by rw [hentry y (user_lt hy), if_neg hne]) fun e' he' => setEntry_of_ne ?_
    rintro rfl
    exact Multiset.disjoint_left.mp (Multiset.nodup_add.mp hown.nodup_owned).2.2
      (tab_mem_tables hdir ht) (entry_mem_pages hy he')
  refine ⟨⟨?_, fun i hi => (hgrow.tab i hi).imp id False.elim, id⟩, hentry, hview⟩
  show Moves s (vm s.mem d) _ (vm (setEntry s.mem t (x % 1024) (clearU e)) d)
  unfold vm
  rw [hpages]
  exact hgrow.moves.add

/-- What making an image returns, when `A` was owned before. -/
structure Makes (L : Layout) (A : Multiset Frame) (s : Mem) (r : Option Image) (s' : Mem) :
    Prop where
  failed : r = none → Moves s A s' 0
  moves : ∀ im, r = some im → Moves s A s' (vm s'.mem im.pgdir)
  ready : ∀ im, r = some im → Ready L im.pgdir im.sz s'

theorem bad_spec (h : Own L s (vm s.mem d)) :
    wp E (bad L d) (fun r s' => r = none ∧ Moves s (vm s.mem d) s' 0) s := by
  unfold bad
  rw [wp_bind]
  refine wp_mono (freevm_spec h) ?_
  rintro _ s' ⟨hfree, -⟩
  exact ⟨rfl, hfree⟩

theorem pgs_mul (k : ℕ) : pgs (k * 4096) = k := by
  unfold pgs
  omega

theorem Loaded.roundup (h : Loaded L d sz s) (hlt : pgs sz * 4096 < KERNBASE) :
    Loaded L d (pgs sz * 4096) s where
  own := h.own
  pages v := by rw [pgs_mul]; exact h.pages v
  kern := h.kern
  lt := hlt
  users x hx := h.users x (by rwa [pgs_mul] at hx)

theorem stackPages_spec {start : ℕ} (h : Loaded L d sz s) :
    wp E (stackPages L d sz start) (fun r s' => Makes L (vm s.mem d) s r s' ∧
      (sz + 12288 ≤ KERNBASE → s.fails = [] → 4 < s.freelist.length →
        ∃ im, r = some im ∧ im.sz = pgs sz * 4096 + 8192) ∧
      ∀ im, r = some im → im.pgdir = d ∧ im.entry = start ∧
        ∀ a < pgs sz * 4096, byteAt s'.mem d a = byteAt s.mem d a) s := by
  have hle := Nat.le_of_lt h.lt
  have hk := pgs_le hle
  have hkern : pgs sz * 4096 ≤ KERNBASE := by
    unfold NUSER at hk
    unfold KERNBASE
    omega
  have hnew : (pgs sz * 4096 + 2 * PGSIZE) % UINT = (pgs sz + 2) * 4096 := by
    unfold NUSER at hk
    unfold PGSIZE UINT
    omega
  have hbelow : Below s.mem d (pgs sz * 4096) := fun x hx hlo => h.below x hx (by rwa [pgs_mul] at hlo)
  unfold stackPages
  rw [PGROUNDUP_eq hle]
  dsimp only
  rw [hnew, wp_bind]
  refine wp_mono (allocuvm_spec h.own hkern hbelow) ?_
  rintro r s₁ (⟨hlt, rfl, hadds⟩ | ⟨rfl, hkeep, hst⟩)
  · have hmax : max (pgs sz * 4096) ((pgs sz + 2) * 4096) = (pgs sz + 2) * 4096 := by omega
    have hsub : (pgs sz + 2) * 4096 - 2 * PGSIZE = pgs sz * 4096 := by unfold PGSIZE; omega
    have hround : pgs sz * 4096 < KERNBASE := Nat.lt_of_le_of_lt (by omega) hlt
    have hloaded := (h.roundup hround).adds (by omega) hlt hadds
    have hguard : pgs sz < pgs ((pgs sz + 2) * 4096) := by rw [pgs_mul]; omega
    have huser := hloaded.user_page hguard
    obtain ⟨e, he⟩ := Option.isSome_iff_exists.mp ((hloaded.pages _).mpr hguard).2
    rw [hmax, if_neg (by omega), hsub, wp_bind]
    refine wp_mono (clearpteu_spec hloaded.own huser he) ?_
    rintro _ s₂ ⟨hch, hentry, hview⟩
    refine ⟨⟨nofun, ?_, ?_⟩, fun _ _ _ => ⟨_, rfl, by dsimp only; omega⟩, ?_⟩
    all_goals
      intro im him
      obtain rfl := Option.some.inj him
    · exact hadds.moves.trans hch.moves
    · have hother : ∀ x < NPAGES, x ≠ pgs sz → Vm.entry s₂.mem d x = Vm.entry s₁.mem d x :=
        fun x hx hne => by rw [hentry x hx, if_neg hne]
      have hstack : pgs sz + 1 < pgs ((pgs sz + 2) * 4096) := by rw [pgs_mul]; omega
      refine ⟨⟨hloaded.own.moves' hch.moves, fun x => ?_⟩,
        hloaded.kern.changes hch fun x hx hlo => hother x hx (by omega), hlt, ?_, ?_, ?_, ?_⟩
      · rw [← hloaded.pages x]
        refine and_congr_right fun hx => ?_
        by_cases hxg : x = pgs sz
        · rw [hentry x (user_lt hx), if_pos hxg, hxg, he]
          exact Iff.rfl
        · rw [hother x (user_lt hx) hxg]
      · dsimp only
        omega
      · dsimp only
        omega
      · have hidx : (pgs sz + 2) * 4096 / 4096 - 1 = pgs sz + 1 := by omega
        dsimp only
        rw [hidx, hother _ (user_lt (hloaded.user_page hstack)) (by omega)]
        exact hloaded.users _ hstack
      · have hidx : (pgs sz + 2) * 4096 / 4096 - 2 = pgs sz := by omega
        dsimp only
        rw [hidx, hentry _ (user_lt huser), if_pos rfl]
        intro e' he'
        cases he'
        exact user_clearU e
    · refine ⟨rfl, rfl, fun a ha => byteAt_congr ?_⟩
      have hx : a / 4096 < pgs sz := by omega
      have hlow := h.user_page hx
      rw [hview _ hlow (by omega), hadds.view hlow, if_neg (by rw [pgs_mul]; omega)]
  · rw [if_pos rfl]
    refine wp_mono (bad_spec (h.own.moves' hkeep.moves)) ?_
    rintro _ s₂ ⟨rfl, hfree⟩
    refine ⟨⟨fun _ => hkeep.moves.trans hfree, nofun, nofun⟩, fun hroom hf hlen => ?_, nofun⟩
    have hlen' := hst (by unfold pgs KERNBASE at *; omega) hf
    rw [pgs_mul, pgs_mul] at hlen'
    omega

theorem loaded_new (h : Own L s 0) (hset : SetsUp L s (some d) s') : Loaded L d 0 s' where
  own := h.moves' (hset.moves d rfl)
  pages v := by
    refine ⟨fun hv => ?_, fun hv => absurd hv (by unfold pgs; omega)⟩
    rw [hset.empty d rfl v hv.1] at hv
    cases hv.2
  kern := hset.kern d rfl
  lt := by decide
  users x hx := absurd hx (by unfold pgs; omega)

/-- The file has its headers, and its segments are good. -/
def WellFormed (ip : File) : Prop :=
  ∃ elf, readElfhdr ip = some elf ∧ elf.magic = ELF_MAGIC ∧ AllGood ip elf.phnum elf.phoff

/-- `loadImage` returns an image of its own or takes nothing. -/
theorem loadImage_spec (h : Own L s 0) : wp E (loadImage L ip) (fun r s' => Makes L 0 s r s' ∧
    (r.isSome → ip.size < UINT → WellFormed ip)) s := by
  unfold loadImage
  cases hel : readElfhdr ip with
  | none => exact ⟨⟨fun _ => Lib.Moves.refl, nofun, nofun⟩, nofun⟩
  | some elf =>
    refine wp_ite (fun _ => ⟨⟨fun _ => Lib.Moves.refl, nofun, nofun⟩, nofun⟩) fun hmagic => ?_
    rw [wp_bind]
    refine wp_mono (setupkvm_spec h) ?_
    intro r s₁ hset
    match r with
    | none => exact ⟨⟨fun _ => (hset.failed rfl).1, nofun, nofun⟩, nofun⟩
    | some d =>
      have hmoves := hset.moves d rfl
      have hloaded := loaded_new h hset
      dsimp only
      rw [wp_bind]
      refine wp_mono (loadSegments_spec hloaded) ?_
      rintro r s₂ ⟨hch, hdone⟩
      match r with
      | none =>
        refine wp_mono (bad_spec (hloaded.own.moves' hch.moves)) ?_
        rintro _ s₃ ⟨rfl, hfree⟩
        exact ⟨⟨fun _ => hmoves.trans (hch.moves.trans hfree), nofun, nofun⟩, nofun⟩
      | some sz =>
        obtain ⟨hloaded₂, himage⟩ := hdone sz rfl
        refine wp_mono (stackPages_spec hloaded₂) ?_
        rintro r s₃ ⟨hmakes, -⟩
        refine ⟨⟨fun hr => hmoves.trans (hch.moves.trans (hmakes.failed hr)),
          fun im hr => hmoves.trans (hch.moves.trans (hmakes.moves im hr)), hmakes.ready⟩,
          fun _ hsize => ?_⟩
        exact ⟨elf, hel, not_not.mp hmagic, (himage hsize).1⟩

theorem loadImage_empty {elf : Elfhdr} (h : Own L s 0) (hel : readElfhdr ip = some elf)
    (hmagic : elf.magic = ELF_MAGIC) (hphnum : elf.phnum = 0) (hf : s.fails = [])
    (hlen : 70 ≤ s.freelist.length) :
    wp E (loadImage L ip) (fun r s' => Makes L 0 s r s' ∧ ∃ im, r = some im ∧ im.sz = 8192) s := by
  refine wp_and (wp_mono (loadImage_spec h) fun _ _ => And.left) ?_
  unfold loadImage
  rw [hel]
  dsimp only
  rw [if_neg (not_not.mpr hmagic), wp_bind]
  refine wp_mono (setupkvm_spec h) ?_
  intro r s₁ hset
  match r with
  | none =>
    have := (hset.failed rfl).2 hf
    omega
  | some d =>
    have := hset.length d rfl
    dsimp only
    rw [hphnum]
    refine wp_mono (stackPages_spec (loaded_new h hset)) ?_
    rintro r s₃ ⟨-, hr, -⟩
    exact hr (by decide) (hset.fails hf) (by omega)

/-! ## What is in memory -/

/-- The loop over the program headers, on a directory of `setupkvm`, does not stop the kernel, and
when it completes, the user pages are those below the size that the segments need and hold the
segments, laid over zeros in the order of their headers. `exec` returns -1 for a file without its
headers, with another magic number, or with a segment that is larger in the file than in memory,
wraps around or reaches the kernel, is not aligned or is not in the file. -/
theorem exec_loads_exactly (hsize : ip.size < UINT) :
    (∀ L s d s₁ elf, Own L s 0 → setupkvm L s = .ok (some d, s₁) → readElfhdr ip = some elf →
      ∃ r s', loadSegments L ip d elf.phnum elf.phoff 0 s₁ = .ok (r, s') ∧ ∀ sz, r = some sz →
        sz = topOf (loadHdrs ip elf.phnum elf.phoff) ∧ InStep L d sz s' ∧
        ∀ a < sz, byteAt s'.mem d a = some (imageOf ip (loadHdrs ip elf.phnum elf.phoff) a)) ∧
    ∀ L s argv old, Own L s 0 → ¬ WellFormed ip →
      ∃ s', exec L (some ip) argv old s = .ok (none, s') := by
  refine ⟨fun L s d s₁ elf hown hset hel => ?_, fun L s argv old hown hbad => ?_⟩
  · have hloaded := loaded_new hown (wp_ok (setupkvm_spec (E := fun _ => False) hown) hset)
    have hzero : Contains d 0 (fun _ => 0) s₁ :=
      ⟨fun a ha => absurd ha (Nat.not_lt_zero a), fun _ _ => rfl⟩
    obtain ⟨r, s', hs', -, hdone⟩ := wp_returns (loadSegments_spec (n := elf.phnum) hloaded)
    refine ⟨r, s', hs', fun sz hr => ?_⟩
    obtain ⟨hloaded', himage⟩ := hdone sz hr
    obtain ⟨-, hsz, hcontains⟩ := himage hsize
    refine ⟨hsz, hloaded'.toInStep, fun a ha => (hcontains _ hzero).bytes a ?_⟩
    unfold pgs
    omega
  · have hspec : wp (fun _ => False) (loadImage L ip) _ s := loadImage_spec hown
    obtain ⟨r, s', hs', -, hwell⟩ := wp_returns hspec
    match r with
    | some im => exact absurd (hwell rfl hsize) hbad
    | none =>
      refine ⟨s', ?_⟩
      unfold exec
      show (loadImage L ip s).bind _ = _
      rw [hs']
      rfl

def framesFrom (base n : ℕ) : List Frame := (List.range n).map fun i => BitVec.ofNat 20 (base + i)

theorem framesFrom_length (base n : ℕ) : (framesFrom base n).length = n := by
  rw [framesFrom, List.length_map, List.length_range]

theorem mem_framesFrom {base n : ℕ} {f : Frame} (hn : base + n ≤ 1048576)
    (hf : f ∈ framesFrom base n) : base ≤ f.toNat ∧ f.toNat < base + n := by
  obtain ⟨i, hi, rfl⟩ := List.mem_map.mp hf
  have := List.mem_range.mp hi
  rw [BitVec.toNat_ofNat]
  omega

theorem framesFrom_nodup {base n : ℕ} (hn : base + n ≤ 1048576) : (framesFrom base n).Nodup := by
  refine List.Nodup.map_on (fun i hi j hj h => ?_) List.nodup_range
  have hi := List.mem_range.mp hi
  have hj := List.mem_range.mp hj
  have := congrArg BitVec.toNat h
  rw [BitVec.toNat_ofNat, BitVec.toNat_ofNat] at this
  omega

theorem smallKernel_valid {f : Frame} (hlo : 4096 ≤ f.toNat) (hhi : f.toNat < 8192) :
    smallKernel.Valid f := by
  unfold Layout.Valid smallKernel KERNBASE PGSIZE PHYSTOP
  dsimp only
  omega

def freshMem : Mem where
  mem := fun _ _ => 0
  freelist := framesFrom 4096 70
  fails := []

theorem freshMem_own : Own smallKernel freshMem 0 := by
  refine ⟨?_, fun f hf => ?_⟩
  · rw [add_zero]
    exact framesFrom_nodup (by omega)
  · rw [add_zero] at hf
    obtain ⟨hlo, hhi⟩ := mem_framesFrom (by omega) hf
    exact smallKernel_valid hlo (by omega)

/-- A program of four bytes at address 0, in eight bytes of memory. -/
def oneSegment : File where
  size := 88
  data := fun i => (bytesOf [ELF_MAGIC, 0, 0, 0, 0, 0, 0, 52, 0, 0, 0, 1, 0,
    ELF_PROG_LOAD, 84, 0, 0, 4, 8, 0, 0, 0x04030201]).getD i 0

theorem setupkvm_returns (h : Own L s 0) (hf : s.fails = []) (hlen : 66 ≤ s.freelist.length) :
    ∃ d s₁, setupkvm L s = .ok (some d, s₁) := by
  obtain ⟨r, s₁, hs₁, hset⟩ := wp_returns (setupkvm_spec h)
  cases r with
  | some d => exact ⟨d, s₁, hs₁⟩
  | none =>
    have := (hset.failed rfl).2 hf
    omega

/-- It is loaded as it should be, and an empty file is not executed. -/
theorem exec_loads_exactly_oneSegment :
    (∃ d s₁, setupkvm smallKernel freshMem = .ok (some d, s₁) ∧
      ∃ r s', loadSegments smallKernel oneSegment d 1 52 0 s₁ = .ok (r, s') ∧ ∀ sz, r = some sz →
        sz = topOf (loadHdrs oneSegment 1 52) ∧ InStep smallKernel d sz s' ∧
        ∀ a < sz, byteAt s'.mem d a = some (imageOf oneSegment (loadHdrs oneSegment 1 52) a)) ∧
    ∃ s', exec smallKernel (some ⟨0, fun _ => 0⟩) [] 0x1000 freshMem = .ok (none, s') := by
  obtain ⟨d, s₁, hset⟩ := setupkvm_returns freshMem_own rfl
    (Nat.le_of_lt (by rw [freshMem, framesFrom_length]; omega))
  refine ⟨⟨d, s₁, hset, (exec_loads_exactly (by decide)).1 smallKernel freshMem d s₁
    ⟨ELF_MAGIC, 0, 52, 1⟩ freshMem_own hset rfl⟩,
    (exec_loads_exactly (by decide)).2 smallKernel freshMem [] 0x1000 freshMem_own ?_⟩
  rintro ⟨elf, hel, -⟩
  cases hel

end DuckoUnix.Exec
