import DuckoUnix.Exec.Model
import DuckoUnix.Vm.Kernel
import DuckoUnix.Vm.Sbrk

/-!
# Loading the segments

`loaduvm` stores bytes of the file in user pages that are there, and nothing else changes. The loop
over the program headers leaves an address space as large as the largest segment needs it, which
holds zeros with the segments laid over them in the order of their headers.
-/

namespace DuckoUnix.Exec

open Lib Vm Function

variable {L : Layout} {E : Fault → Prop} {s s' s'' : Mem} {d t f : Frame} {sz : ℕ} {ip : File}

/-! ## Filling user pages -/

/-- Nothing but the contents of user pages of `d` changes. -/
structure Fills (d : Frame) (s s' : Mem) : Prop where
  freelist : s'.freelist = s.freelist
  fails : s'.fails = s.fails
  frame : ∀ f, f ∉ pages s.mem d → s'.mem f = s.mem f

namespace Fills

theorem refl : Fills d s s := ⟨rfl, rfl, fun _ _ => rfl⟩

theorem tables (h : Fills d s s') (hown : Own L s (vm s.mem d)) :
    ∀ f ∈ Vm.tables s.mem d, s'.mem f = s.mem f := fun f hf =>
  h.frame f fun hp => Multiset.disjoint_left.mp (Multiset.nodup_add.mp hown.nodup_owned).2.2 hf hp

theorem entry (h : Fills d s s') (hown : Own L s (vm s.mem d)) {x : ℕ} (hx : x < NPAGES) :
    Vm.entry s'.mem d x = Vm.entry s.mem d x :=
  entry_congr (h.tables hown) hx

theorem vm (h : Fills d s s') (hown : Own L s (Vm.vm s.mem d)) :
    Vm.vm s'.mem d = Vm.vm s.mem d :=
  vm_congr (h.tables hown)

theorem moves (h : Fills d s s') (hown : Own L s (Vm.vm s.mem d)) :
    Moves s (Vm.vm s.mem d) s' (Vm.vm s'.mem d) := by
  refine ⟨?_, fun x hx => h.frame x fun hp => hx ?_⟩
  · rw [h.freelist, h.vm hown]
  · exact Multiset.mem_add.mpr (.inr (Multiset.mem_add.mpr (.inr hp)))

theorem trans (h : Fills d s s') (h' : Fills d s' s'') (hown : Own L s (Vm.vm s.mem d)) :
    Fills d s s'' where
  freelist := h'.freelist.trans h.freelist
  fails := h'.fails.trans h.fails
  frame f hf := by
    rw [h'.frame f, h.frame f hf]
    rwa [pages_congr fun x hx => h.entry hown (user_lt hx)]

theorem keeps (h : Fills d s s') (hown : Own L s (Vm.vm s.mem d)) : Keeps d s s' where
  moves := h.moves hown
  tab i hi := .inl (by rwa [← tab_congr (h.tables hown)])
  fails hf := h.fails.trans hf
  entry _ hx := h.entry hown hx

end Fills

theorem fills_page {e : BitVec 32} {x : ℕ} {pg : Bytes} (hx : x < NUSER)
    (he : entry s.mem d x = some e) :
    Fills d s { s with mem := update s.mem (PTE_ADDR e) pg } := by
  refine ⟨rfl, rfl, fun f hf => update_of_ne ?_ _ _⟩
  rintro rfl
  exact hf (entry_mem_pages hx he)

theorem walk_present {x va : ℕ} {e : BitVec 32} (hva : va < UINT) (hx : va / 4096 = x)
    (he : entry s.mem d x = some e) :
    ∃ t, tab s.mem d (PDX va) = some t ∧ readPte (s.mem t) (PTX va) = e := by
  rw [PDX_eq hva, PTX_eq, hx]
  unfold entry at he
  obtain ⟨t, ht, he⟩ := Option.bind_eq_some_iff.mp he
  split_ifs at he with hp
  exact ⟨t, ht, Option.some.inj he⟩

/-! ## The bytes a process sees -/

/-- The byte at user address `a`. -/
def byteAt (mem : Frame → Bytes) (d : Frame) (a : ℕ) : Option (BitVec 8) :=
  (view mem d (a / 4096)).map fun p => p.bytes (a % 4096)

theorem byteAt_congr {a : ℕ} (h : view s'.mem d (a / 4096) = view s.mem d (a / 4096)) :
    byteAt s'.mem d a = byteAt s.mem d a := by
  unfold byteAt
  rw [h]

theorem user_of_addr {a : ℕ} (h : a < KERNBASE) : a / 4096 < NUSER := by
  unfold KERNBASE at h
  unfold NUSER
  omega

theorem view_update {e : BitVec 32} {x y : ℕ} (pg : Bytes) (hown : Own L s (vm s.mem d))
    (hx : x < NUSER) (he : entry s.mem d x = some e) (hy : y < NUSER) :
    view (update s.mem (PTE_ADDR e) pg) d y =
      if y = x then some ⟨PTE_FLAGS e, pg⟩ else view s.mem d y := by
  have hfill : Fills d s { s with mem := update s.mem (PTE_ADDR e) pg } := fills_page hx he
  have hsame : entry (update s.mem (PTE_ADDR e) pg) d y = entry s.mem d y :=
    hfill.entry hown (user_lt hy)
  by_cases hyx : y = x
  · subst hyx
    rw [if_pos rfl, view_of_entry (hsame.trans he), update_self]
  · rw [if_neg hyx]
    refine view_congr hsame fun e' he' => update_of_ne (fun haddr => hyx ?_) _ _
    exact page_inj hown hy hx he' he haddr

/-- The user bytes from `lo` to `hi` are set to those of `f`, and the others are as they were. -/
def Stores (d : Frame) (lo hi : ℕ) (f : ℕ → BitVec 8) (s s' : Mem) : Prop :=
  ∀ a < KERNBASE, byteAt s'.mem d a =
    if lo ≤ a ∧ a < hi then some (f a) else byteAt s.mem d a

namespace Stores

variable {lo hi mid : ℕ} {f : ℕ → BitVec 8}

theorem refl (h : hi ≤ lo) : Stores d lo hi f s s := fun a _ => by rw [if_neg (by omega)]

theorem trans {next : ℕ} (h : Stores d lo mid f s s') (h' : Stores d next hi f s' s'')
    (hmid : mid = min next hi) (hlo : lo ≤ next) : Stores d lo hi f s s'' := by
  intro a ha
  rw [h' a ha, h a ha]
  by_cases h1 : next ≤ a ∧ a < hi
  · rw [if_pos h1, if_pos (by omega)]
  · rw [if_neg h1]
    by_cases h2 : lo ≤ a ∧ a < mid
    · rw [if_pos h2, if_pos (by omega)]
    · rw [if_neg h2, if_neg (by omega)]

theorem range {lo' hi' : ℕ} (h : Stores d lo hi f s s')
    (hr : ∀ a, lo ≤ a ∧ a < hi ↔ lo' ≤ a ∧ a < hi') : Stores d lo' hi' f s s' := by
  intro a ha
  rw [h a ha, if_congr (hr a) rfl rfl]

theorem congr {g : ℕ → BitVec 8} (h : Stores d lo hi f s s')
    (hfg : ∀ a, lo ≤ a → a < hi → f a = g a) : Stores d lo hi g s s' := by
  intro a ha
  rw [h a ha]
  by_cases hin : lo ≤ a ∧ a < hi
  · rw [if_pos hin, if_pos hin, hfg a hin.1 hin.2]
  · rw [if_neg hin, if_neg hin]

end Stores

/-- The bytes `bs` are at user address `a`. -/
def HasBytes (mem : Frame → Bytes) (d : Frame) (a : ℕ) (bs : List (BitVec 8)) : Prop :=
  ∀ i < bs.length, byteAt mem d (a + i) = bs[i]?

theorem HasBytes.congr {a : ℕ} {bs : List (BitVec 8)} (h : HasBytes s.mem d a bs)
    (hsame : ∀ b, a ≤ b → b < a + bs.length → byteAt s'.mem d b = byteAt s.mem d b) :
    HasBytes s'.mem d a bs := fun i hi => by rw [hsame (a + i) (by omega) (by omega), h i hi]

theorem Stores.hasBytes {a : ℕ} {bs : List (BitVec 8)}
    (h : Stores d a (a + bs.length) (fun b => bs.getD (b - a) 0) s s')
    (hle : a + bs.length ≤ KERNBASE) : HasBytes s'.mem d a bs := fun i hi => by
  rw [h (a + i) (by omega), if_pos (by omega)]
  dsimp only
  rw [Nat.add_sub_cancel_left, List.getD_eq_getElem?_getD, List.getElem?_eq_getElem hi,
    Option.getD_some]

theorem stores_page {e : BitVec 32} {x lo hi : ℕ} {f : ℕ → BitVec 8} {pg : Bytes}
    (hown : Own L s (vm s.mem d)) (hx : x < NUSER) (he : entry s.mem d x = some e)
    (hlo : x * 4096 ≤ lo) (hhi : hi ≤ (x + 1) * 4096)
    (hpg : ∀ j < 4096, pg j =
      if lo ≤ x * 4096 + j ∧ x * 4096 + j < hi then f (x * 4096 + j) else s.mem (PTE_ADDR e) j) :
    Stores d lo hi f s { s with mem := update s.mem (PTE_ADDR e) pg } := by
  intro a ha
  unfold byteAt
  rw [view_update pg hown hx he (user_of_addr ha)]
  by_cases hax : a / 4096 = x
  · have haddr : x * 4096 + a % 4096 = a := by omega
    rw [if_pos hax, hax, view_of_entry he, Option.map_some, Option.map_some]
    dsimp only
    rw [hpg (a % 4096) (Nat.mod_lt _ (by decide)), haddr]
    by_cases hin : lo ≤ a ∧ a < hi
    · rw [if_pos hin, if_pos hin]
    · rw [if_neg hin, if_neg hin]
  · rw [if_neg hax, if_neg (by omega)]

/-! ## loaduvm -/

theorem readi_full {off n : ℕ} (h : readi ip off n = some n) : off + n ≤ ip.size := by
  unfold readi at h
  split_ifs at h with h1 h2
  · have := Option.some.inj h
    omega
  · omega

theorem stores_readOver {e : BitVec 32} {a off m : ℕ} (hown : Own L s (vm s.mem d))
    (ha : a % 4096 = 0) (hx : a / 4096 < NUSER) (he : entry s.mem d (a / 4096) = some e)
    (hm : m ≤ 4096) :
    Stores d a (a + m) (fun b => ip.data (off + (b - a))) s { s with
      mem := update s.mem (PTE_ADDR e) (readOver (s.mem (PTE_ADDR e)) ip off m) } := by
  have hpage : a / 4096 * 4096 = a := by omega
  refine stores_page hown hx he (Nat.le_of_eq hpage) (by omega) fun j hj => ?_
  rw [readOver, hpage, Nat.add_sub_cancel_left]
  by_cases hin : j < m
  · rw [if_pos hin, if_pos ⟨by omega, by omega⟩]
  · rw [if_neg hin, if_neg (by omega)]

theorem chunk_eq (n i : ℕ) : (if n - i < PGSIZE then n - i else PGSIZE) = min (n - i) 4096 := by
  unfold PGSIZE
  split_ifs <;> omega

/-- The loop of `loaduvm` from byte `i` on fills pages that are there; if it returns 0, the segment
is in the file and its rest is loaded. -/
theorem loadLoop_spec {addr i k offset n : ℕ} (hown : Own L s (vm s.mem d))
    (haddr : addr % 4096 = 0) (hi : i % 4096 = 0) (hsz : addr + n ≤ KERNBASE)
    (hpresent : ∀ x < pgs (addr + n), (entry s.mem d x).isSome) (hk : pgs n ≤ i / 4096 + k) :
    wp E (loadLoop d addr ip offset n k i) (fun r s' => Fills d s s' ∧
      (r = true → ip.size < UINT → (i < n → offset + i < UINT) →
        Stores d (addr + i) (addr + n) (fun a => ip.data (offset + (a - addr))) s s' ∧
        (i < n → offset + n ≤ ip.size))) s := by
  induction k generalizing i s with
  | zero =>
    have hend : n ≤ i := by
      unfold pgs at hk
      omega
    exact ⟨.refl, fun _ _ _ => ⟨.refl (by omega), fun h => by omega⟩⟩
  | succ k ih =>
    unfold loadLoop
    refine wp_ite (fun hlt => ?_) fun hge =>
      ⟨.refl, fun _ _ _ => ⟨.refl (by omega), fun h => by omega⟩⟩
    have hpage : (addr + i) / 4096 < pgs (addr + n) := by unfold pgs; omega
    have huser : (addr + i) / 4096 < NUSER := Nat.lt_of_lt_of_le hpage (pgs_le hsz)
    have hva : addr + i < UINT := by unfold KERNBASE at hsz; unfold UINT; omega
    obtain ⟨e, he⟩ := Option.isSome_iff_exists.mp (hpresent _ hpage)
    obtain ⟨t, ht, hread⟩ := walk_present hva rfl he
    rw [wp_bind, wp_walkpgdir_false, Nat.mod_eq_of_lt hva, ht, Option.map_some, wp_bind, wp_load]
    dsimp only
    rw [hread, chunk_eq, wp_bind, wp_modify]
    have hfill : ∀ pg, Fills d s { s with mem := update s.mem (PTE_ADDR e) pg } :=
      fun _ => fills_page huser he
    refine wp_ite (fun hfull => ?_) fun _ => ⟨hfill _, nofun⟩
    have hfuel : pgs n ≤ (i + PGSIZE) / 4096 + k := by unfold PGSIZE; omega
    refine wp_mono (ih (hown.moves' ((hfill _).moves hown)) (by unfold PGSIZE; omega)
      (fun x hx => ?_) hfuel) ?_
    · rw [(hfill _).entry hown (user_lt (Nat.lt_of_lt_of_le hx (pgs_le hsz)))]
      exact hpresent x hx
    · rintro r s' ⟨hfill', hrest⟩
      refine ⟨(hfill _).trans hfill' hown, fun hr hsize hoff => ?_⟩
      rw [hfull, Option.getD_some, Nat.mod_eq_of_lt (hoff hlt)] at hrest
      rw [Nat.mod_eq_of_lt (hoff hlt)] at hfull
      have hend := readi_full hfull
      have hstore : Stores d (addr + i) (addr + i + min (n - i) 4096) (fun a =>
          ip.data (offset + i + (a - (addr + i)))) s _ :=
        stores_readOver hown (by omega) huser he (Nat.min_le_right (n - i) 4096)
      unfold PGSIZE at hrest
      obtain ⟨hstores, hbound⟩ := hrest hr hsize fun hmore =>
        Nat.lt_of_le_of_lt (by omega : offset + (i + 4096) ≤ ip.size) hsize
      refine ⟨(hstore.congr fun a h1 _ => ?_).trans hstores (by omega) (by omega), fun _ => ?_⟩
      · have hfile : offset + i + (a - (addr + i)) = offset + (a - addr) := by omega
        rw [hfile]
      · by_cases hlast : i + 4096 < n
        · exact hbound hlast
        · omega

theorem loaduvm_spec {addr offset n : ℕ} (hown : Own L s (vm s.mem d)) (haddr : addr % PGSIZE = 0)
    (hsz : addr + n ≤ KERNBASE) (hpresent : ∀ x < pgs (addr + n), (entry s.mem d x).isSome) :
    wp E (loaduvm d addr ip offset n) (fun r s' => Fills d s s' ∧
      (r = true → ip.size < UINT → offset < UINT →
        Stores d addr (addr + n) (fun a => ip.data (offset + (a - addr))) s s' ∧
        (0 < n → offset + n ≤ ip.size))) s := by
  have hfuel : pgs n ≤ 0 / 4096 + (n / PGSIZE + 1) := by
    unfold pgs PGSIZE
    omega
  unfold loaduvm
  rw [if_neg (not_not.mpr haddr)]
  refine wp_mono (loadLoop_spec hown haddr (Nat.zero_mod _) hsz hpresent hfuel) ?_
  rintro r s' ⟨hfill, hstores⟩
  exact ⟨hfill, fun hr hsize hoff => hstores hr hsize fun _ => hoff⟩

/-! ## The segments -/

/-- An address space of size `sz` with the kernel part and with all its pages for the user. -/
structure Loaded (L : Layout) (d : Frame) (sz : ℕ) (s : Mem) : Prop extends InStep L d sz s where
  kern : Kern s.mem d
  lt : sz < KERNBASE
  users : ∀ x < pgs sz, ∀ e, entry s.mem d x = some e → user e = true

namespace Loaded

theorem user_page (h : Loaded L d sz s) {x : ℕ} (hx : x < pgs sz) : x < NUSER :=
  Nat.lt_of_lt_of_le hx (pgs_le (Nat.le_of_lt h.lt))

theorem keeps (h : Loaded L d sz s) (hk : Keeps d s s') : Loaded L d sz s' where
  toInStep := h.toInStep.keeps hk
  kern := h.kern.changes hk.toChanges fun x hx _ => hk.entry x hx
  lt := h.lt
  users x hx e := by
    rw [hk.entry x (user_lt (h.user_page hx))]
    exact h.users x hx e

theorem adds {newsz : ℕ} (h : Loaded L d sz s) (hle : sz ≤ newsz) (hnew : newsz < KERNBASE)
    (ha : Adds d (pgs sz) (pgs newsz) s s') : Loaded L d newsz s' where
  toInStep := h.toInStep.adds hle hnew ha
  kern := h.kern.changes ha.toChanges fun x hx hlo => ha.old x hx fun hin => by
    have := Nat.lt_of_lt_of_le hin.2 (pgs_le (Nat.le_of_lt hnew))
    omega
  lt := hnew
  users x hx e he := by
    have hlt : x < NPAGES := user_lt (Nat.lt_of_lt_of_le hx (pgs_le (Nat.le_of_lt hnew)))
    by_cases hlo : pgs sz ≤ x
    · obtain ⟨f, hf⟩ := ha.new x hlt hlo hx
      rw [hf] at he
      cases he
      exact user_mkPte f (PTE_W ||| PTE_U)
    · rw [ha.old x hlt (by omega)] at he
      exact h.users x (by omega) e he

end Loaded

/-- The user bytes of `d` are those of `m`, which is 0 from `sz` on. -/
structure Contains (d : Frame) (sz : ℕ) (m : Bytes) (s : Mem) : Prop where
  bytes : ∀ a < pgs sz * 4096, byteAt s.mem d a = some (m a)
  zero : ∀ a, sz ≤ a → m a = 0

namespace Contains

variable {m : Bytes}

theorem addr_lt {a : ℕ} (hsz : sz ≤ KERNBASE) (ha : a < pgs sz * 4096) : a < KERNBASE := by
  have hpgs := pgs_le hsz
  unfold NUSER at hpgs
  unfold KERNBASE
  omega

theorem adds {newsz : ℕ} (h : Contains d sz m s) (hle : sz ≤ newsz) (hnew : newsz < KERNBASE)
    (ha : Adds d (pgs sz) (pgs newsz) s s') : Contains d newsz m s' := by
  refine ⟨fun a haddr => ?_, fun a haddr => h.zero a (by omega)⟩
  have huser := user_of_addr (addr_lt (Nat.le_of_lt hnew) haddr)
  have hpage : a / 4096 < pgs newsz := (Nat.div_lt_iff_lt_mul (by decide)).mpr haddr
  by_cases hin : pgs sz ≤ a / 4096 ∧ a / 4096 < pgs newsz
  · have hzero : m a = 0 := h.zero a (by unfold pgs at hin; omega)
    unfold byteAt
    rw [ha.view huser, if_pos hin, Option.map_some, hzero]
  · have hview := ha.view huser
    rw [if_neg hin] at hview
    have hold : a / 4096 < pgs sz := by omega
    rw [byteAt_congr hview, h.bytes a ((Nat.div_lt_iff_lt_mul (by decide)).mp hold)]

theorem keeps (h : Contains d sz m s) (hview : ∀ x < NUSER, view s'.mem d x = view s.mem d x)
    (hsz : sz ≤ KERNBASE) : Contains d sz m s' := by
  refine ⟨fun a ha => ?_, h.zero⟩
  rw [byteAt_congr (hview _ (user_of_addr (addr_lt hsz ha))), h.bytes a ha]

end Contains

/-- `allocuvm` while the image is made: it is as large as asked for, or nothing has changed. -/
theorem allocuvm_loaded {newsz : ℕ} (h : Loaded L d sz s) :
    wp E (allocuvm L d sz newsz) (fun r s' => Changes d s s' ∧
      (r = 0 ∨ newsz < KERNBASE ∧ r = max sz newsz ∧ Loaded L d r s' ∧
        ∀ m, Contains d sz m s → Contains d r m s')) s := by
  refine wp_mono (allocuvm_spec h.own (Nat.le_of_lt h.lt) h.below) ?_
  rintro r s' (⟨hlt, rfl, hadds⟩ | ⟨rfl, hkeep, -⟩)
  · refine ⟨hadds.toChanges, .inr ⟨hlt, rfl, ?_⟩⟩
    by_cases hle : sz ≤ newsz
    · rw [Nat.max_eq_right hle]
      exact ⟨h.adds hle hlt hadds, fun m hm => hm.adds hle hlt hadds⟩
    · have hempty : pgs newsz ≤ pgs sz := by unfold pgs; omega
      rw [Nat.max_eq_left (by omega)]
      refine ⟨h.keeps ⟨hadds.toChanges, fun x hx => hadds.old x hx (by omega)⟩, fun m hm =>
        hm.keeps (fun x hx => ?_) (Nat.le_of_lt h.lt)⟩
      rw [hadds.view hx, if_neg (by omega)]
  · exact ⟨hkeep.toChanges, .inl rfl⟩

/-! ## Program headers -/

theorem readProghdr_le {off : ℕ} {ph : Proghdr} (h : readProghdr ip off = some ph) :
    off + 32 ≤ ip.size := by
  unfold readProghdr at h
  split_ifs at h with hfull
  exact readi_full hfull

theorem readProghdr_off {off : ℕ} {ph : Proghdr} (h : readProghdr ip off = some ph) :
    ph.off < UINT := by
  unfold readProghdr at h
  split_ifs at h
  cases h
  exact getLE_lt ..

theorem readProghdr_end {off : ℕ} {ph : Proghdr} (hph : readProghdr ip off = some ph)
    (hwrap : ¬ (ph.vaddr + ph.memsz) % UINT < ph.vaddr) :
    (ph.vaddr + ph.memsz) % UINT = ph.vaddr + ph.memsz := by
  unfold readProghdr at hph
  split_ifs at hph
  cases hph
  have hv : getLE ip.data (off + 8) 4 < UINT := getLE_lt ..
  have hm : getLE ip.data (off + 20) 4 < UINT := getLE_lt ..
  dsimp only at hwrap ⊢
  generalize getLE ip.data (off + 8) 4 = v at *
  generalize getLE ip.data (off + 20) 4 = m at *
  by_cases hlt : v + m < UINT
  · rw [Nat.mod_eq_of_lt hlt]
  · rw [Nat.mod_eq_sub_mod (by omega), Nat.mod_eq_of_lt (by omega)] at hwrap
    omega

/-- A segment that can be loaded from the file. -/
structure Good (ip : File) (ph : Proghdr) : Prop where
  filesz : ph.filesz ≤ ph.memsz
  top : ph.vaddr + ph.memsz < KERNBASE
  aligned : ph.vaddr % PGSIZE = 0
  inFile : 0 < ph.filesz → ph.off + ph.filesz ≤ ip.size

/-- There are `n` program headers at `off`, and the segments to load are good. -/
def AllGood (ip : File) (n off : ℕ) : Prop :=
  ∀ i < n, ∃ ph, readProghdr ip (off + 32 * i) = some ph ∧ (ph.type = ELF_PROG_LOAD → Good ip ph)

theorem AllGood.cons {n off : ℕ} {ph : Proghdr} (hph : readProghdr ip off = some ph)
    (hgood : ph.type = ELF_PROG_LOAD → Good ip ph) (h : AllGood ip n (off + 32)) :
    AllGood ip (n + 1) off := by
  intro i hi
  cases i with
  | zero => exact ⟨ph, hph, hgood⟩
  | succ i =>
    obtain ⟨ph', hph', hgood'⟩ := h i (by omega)
    have hoff : off + 32 * (i + 1) = off + 32 + 32 * i := by omega
    exact ⟨ph', hoff ▸ hph', hgood'⟩

/-- The headers of the segments to load, among the `n` program headers at `off`. -/
def loadHdrs (ip : File) (n off : ℕ) : List Proghdr :=
  ((List.range n).filterMap fun i => readProghdr ip (off + 32 * i)).filter fun ph =>
    ph.type = ELF_PROG_LOAD

theorem loadHdrs_succ {n off : ℕ} {ph : Proghdr} (hph : readProghdr ip off = some ph) :
    loadHdrs ip (n + 1) off =
      if ph.type = ELF_PROG_LOAD then ph :: loadHdrs ip n (off + 32) else loadHdrs ip n (off + 32) := by
  have hoff : ∀ i, off + 32 * (i + 1) = off + 32 + 32 * i := fun i => by omega
  unfold loadHdrs
  rw [List.range_succ_eq_map, List.filterMap_cons, Nat.mul_zero, Nat.add_zero, hph]
  dsimp only
  rw [List.filterMap_map, List.filter_cons]
  simp only [Function.comp_def, Nat.succ_eq_add_one, hoff, decide_eq_true_eq]

/-- The size that a segment asks for. -/
def grow (sz : ℕ) (ph : Proghdr) : ℕ := max sz (ph.vaddr + ph.memsz)

/-- `m` with the part of a segment that is in the file laid over it. -/
def overlay (ip : File) (m : Bytes) (ph : Proghdr) : Bytes := fun a =>
  if ph.vaddr ≤ a ∧ a < ph.vaddr + ph.filesz then ip.data (ph.off + (a - ph.vaddr)) else m a

/-- The size that the segments need. -/
def topOf (phs : List Proghdr) : ℕ := phs.foldl grow 0

/-- Zeros with the segments laid over them, in the order of their headers. -/
def imageOf (ip : File) (phs : List Proghdr) : Bytes := phs.foldl (overlay ip) fun _ => 0

theorem Contains.overlay {m : Bytes} {ph : Proghdr} (h : Contains d sz m s) (hsz : sz ≤ KERNBASE)
    (hend : ph.vaddr + ph.filesz ≤ sz)
    (hstores : Stores d ph.vaddr (ph.vaddr + ph.filesz) (fun a => ip.data (ph.off + (a - ph.vaddr)))
      s s') : Contains d sz (overlay ip m ph) s' := by
  refine ⟨fun a ha => ?_, fun a ha => ?_⟩
  · rw [hstores a (addr_lt hsz ha), h.bytes a ha, Exec.overlay]
    split_ifs <;> rfl
  · rw [Exec.overlay, if_neg (by omega), h.zero a ha]

/-- The loop over the program headers. -/
theorem loadSegments_spec {n off : ℕ} (h : Loaded L d sz s) :
    wp E (loadSegments L ip d n off sz) (fun r s' => Changes d s s' ∧
      ∀ sz', r = some sz' → Loaded L d sz' s' ∧ (ip.size < UINT → AllGood ip n off ∧
        sz' = (loadHdrs ip n off).foldl grow sz ∧ ∀ m, Contains d sz m s →
          Contains d sz' ((loadHdrs ip n off).foldl (overlay ip) m) s')) s := by
  induction n generalizing off sz s with
  | zero =>
    refine ⟨.refl, fun sz' hr => ?_⟩
    cases hr
    exact ⟨h, fun _ => ⟨fun i hi => absurd hi (Nat.not_lt_zero i), rfl, fun m hm => hm⟩⟩
  | succ n ih =>
    unfold loadSegments
    cases hph : readProghdr ip off with
    | none => exact ⟨.refl, nofun⟩
    | some ph =>
      have hnext : ip.size < UINT → (off + 32) % UINT = off + 32 := fun hsize => by
        have := readProghdr_le hph
        exact Nat.mod_eq_of_lt (by omega)
      refine wp_ite (fun hskip => ?_) fun hload => ?_
      · refine wp_mono (ih h) ?_
        rintro r s' ⟨hch, hdone⟩
        refine ⟨hch, fun sz' hr => ?_⟩
        obtain ⟨hloaded, himage⟩ := hdone sz' hr
        refine ⟨hloaded, fun hsize => ?_⟩
        rw [hnext hsize] at himage
        rw [loadHdrs_succ hph, if_neg hskip]
        obtain ⟨hgood, hrest⟩ := himage hsize
        exact ⟨.cons hph (fun ht => absurd ht hskip) hgood, hrest⟩
      refine wp_ite (fun _ => ⟨.refl, nofun⟩) fun hmem => ?_
      refine wp_ite (fun _ => ⟨.refl, nofun⟩) fun hwrap => ?_
      rw [readProghdr_end hph hwrap, wp_bind]
      refine wp_mono (allocuvm_loaded h) ?_
      rintro r s₁ ⟨hch, hr⟩
      refine wp_ite (fun _ => ⟨hch, nofun⟩) fun hne => ?_
      refine wp_ite (fun _ => ⟨hch, nofun⟩) fun halign => ?_
      obtain ⟨htop, hmax, hloaded, hgrown⟩ := hr.resolve_left hne
      -- the segment lies inside the pages that are there now
      have hlt := hloaded.lt
      have hend : ph.vaddr + ph.filesz ≤ r := by omega
      rw [wp_bind]
      refine wp_mono (loaduvm_spec hloaded.own (not_not.mp halign) (by omega) fun x hx => ?_) ?_
      · exact ((hloaded.pages x).mpr (Nat.lt_of_lt_of_le hx (Nat.div_le_div_right (by omega)))).2
      rintro ok s₂ ⟨hfill, hstores⟩
      have hkeep := hfill.keeps hloaded.own
      refine wp_ite (fun hok => ?_) fun _ => ⟨hch.trans hkeep.toChanges, nofun⟩
      refine wp_mono (ih (hloaded.keeps hkeep)) ?_
      rintro r' s₃ ⟨hch', hdone⟩
      refine ⟨hch.trans (hkeep.toChanges.trans hch'), fun sz' hr' => ?_⟩
      obtain ⟨hloaded', himage⟩ := hdone sz' hr'
      refine ⟨hloaded', fun hsize => ?_⟩
      obtain ⟨hstored, hin⟩ := hstores hok hsize (readProghdr_off hph)
      rw [hnext hsize] at himage
      rw [loadHdrs_succ hph, if_pos (not_not.mp hload), List.foldl_cons]
      obtain ⟨hgood, hsz', hrest⟩ := himage hsize
      refine ⟨.cons hph (fun _ => ⟨by omega, htop, not_not.mp halign, hin⟩) hgood, ?_,
        fun m hm => ?_⟩
      · rw [hsz', hmax]
        rfl
      · exact hrest _ ((hgrown m hm).overlay (Nat.le_of_lt hlt) hend hstored)

end DuckoUnix.Exec
