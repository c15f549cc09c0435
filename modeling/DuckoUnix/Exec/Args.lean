import DuckoUnix.Exec.Image

/-!
# Where exec copies the arguments

`exec` moves the stack pointer down by the length of each argument, in `uint` and without a check,
and copies the argument there. `copyout` stops at a page that is not for the user, but `uva2ka`
does not check that there is a page table at all. The arguments only go to user pages of the new
image unless the stack pointer, within the stack page so far, wraps around to an address between
the top of physical memory and the devices, where there is none (`Wraps`).
-/

namespace DuckoUnix.Exec

open Lib Vm Function

variable {L : Layout} {E : Fault → Prop} {s s' s'' : Mem} {d t f : Frame} {sz sp : ℕ} {ip : File}
  {arg : Str} {argv : List Str}

/-- Nothing but the contents of pages of `d` with `PTE_P` and `PTE_U` changes. -/
structure OnlyUser (d : Frame) (s s' : Mem) : Prop where
  freelist : s'.freelist = s.freelist
  fails : s'.fails = s.fails
  frame : ∀ f, (∀ x < NPAGES, ∀ e, entry s.mem d x = some e → user e = true → PTE_ADDR e ≠ f) →
    s'.mem f = s.mem f

namespace OnlyUser

theorem refl : OnlyUser d s s := ⟨rfl, rfl, fun _ _ => rfl⟩

theorem fills (h : OnlyUser d s s') (hk : Kern s.mem d) : Fills d s s' where
  freelist := h.freelist
  fails := h.fails
  frame f hf := h.frame f fun x hx e he hu => by
    rintro rfl
    by_cases hlo : x < NUSER
    · exact hf (entry_mem_pages hlo he)
    · rw [hk.noUser x hx (by omega) e he] at hu
      cases hu

theorem trans (h : OnlyUser d s s') (h' : OnlyUser d s' s'')
    (hsame : ∀ x < NPAGES, entry s'.mem d x = entry s.mem d x) : OnlyUser d s s'' where
  freelist := h'.freelist.trans h.freelist
  fails := h'.fails.trans h.fails
  frame f hf := by
    rw [h'.frame f fun x hx e he => hf x hx e (by rwa [← hsame x hx]), h.frame f hf]

end OnlyUser

theorem Ready.congr (h : Ready L d sz s) (hown : Own L s' (vm s.mem d))
    (hsame : ∀ f ∈ tables s.mem d, s'.mem f = s.mem f) : Ready L d sz s' := by
  have hentry : ∀ x < NPAGES, entry s'.mem d x = entry s.mem d x := fun x hx => entry_congr hsame hx
  have hidx : ∀ k, sz / 4096 - k < NPAGES := fun k => by
    have := h.lt
    unfold KERNBASE at this
    unfold NPAGES
    omega
  refine ⟨⟨by rwa [vm_congr hsame], fun v => ?_⟩, h.kern.congr hsame, h.lt, h.aligned, h.room,
    ?_, ?_⟩
  · rw [← h.pages v]
    exact and_congr_right fun hv => by rw [hentry v (user_lt hv)]
  · rw [hentry _ (hidx 1)]
    exact h.stack
  · rw [hentry _ (hidx 2)]
    exact h.guard

theorem Ready.fills (h : Ready L d sz s) (hfill : Fills d s s') : Ready L d sz s' :=
  h.congr (hfill.vm h.own ▸ h.own.moves' (hfill.moves h.own)) (hfill.tables h.own)

/-! ## uva2ka -/

theorem uva2ka_gap {va : ℕ} {Q : Option Frame → Mem → Prop} (h : tab s.mem d (PDX va) = none) :
    wp E (uva2ka d va) Q s ↔ E .nullDeref := by
  unfold uva2ka
  rw [wp_bind, wp_walkpgdir_false, h]
  exact Iff.rfl

theorem uva2ka_entry {va : ℕ} {e : BitVec 32} {Q : Option Frame → Mem → Prop} (hva : va < UINT)
    (he : entry s.mem d (va / 4096) = some e) :
    wp E (uva2ka d va) Q s ↔ Q (if user e then some (PTE_ADDR e) else none) s := by
  obtain ⟨t, ht, hread⟩ := walk_present hva rfl he
  unfold uva2ka
  rw [wp_bind, wp_walkpgdir_false, ht, Option.map_some, wp_bind, wp_load]
  rw [hread, if_neg (not_not.mpr (present_of_entry he))]
  by_cases hu : user e = true
  · rw [if_neg (not_not.mpr hu), if_pos hu]
    exact Iff.rfl
  · rw [if_pos hu, if_neg hu]
    exact Iff.rfl

/-! ## copyout -/

theorem onlyUser_page {e : BitVec 32} {x : ℕ} {pg : Bytes} (hx : x < NPAGES)
    (he : entry s.mem d x = some e) (hu : user e = true) :
    OnlyUser d s { s with mem := update s.mem (PTE_ADDR e) pg } :=
  ⟨rfl, rfl, fun _ hf => update_of_ne (hf x hx e he hu).symm _ _⟩

/-- `copyout` below the top of the image: it goes to user pages only, it does not get past the
guard page, and it does not fail in the stack page. -/
structure CopiesOut (d : Frame) (sz va : ℕ) (buf : List (BitVec 8)) (s : Mem) (r : Bool) (s' : Mem) :
    Prop where
  onlyUser : OnlyUser d s s'
  noGuard : r = true → 0 < buf.length → ¬ (va < sz - 4096 ∧ sz - 8192 < va + buf.length)
  stack : sz - 4096 ≤ va → r = true
  stored : r = true → Stores d va (va + buf.length) (fun a => buf.getD (a - va) 0) s s'

theorem stores_blit {e : BitVec 32} {va k : ℕ} {buf : List (BitVec 8)} (hown : Own L s (vm s.mem d))
    (hx : va / 4096 < NUSER) (he : entry s.mem d (va / 4096) = some e) (hk : k ≤ buf.length)
    (hend : va + k ≤ (va / 4096 + 1) * 4096) :
    Stores d va (va + k) (fun a => buf.getD (a - va) 0) s { s with
      mem := update s.mem (PTE_ADDR e)
        (blit (s.mem (PTE_ADDR e)) (va - va / 4096 * 4096) (buf.take k)) } := by
  refine stores_page hown hx he (Nat.div_mul_le_self va 4096) hend fun j hj => ?_
  have hlen : (buf.take k).length = k := by rw [List.length_take, Nat.min_eq_left hk]
  unfold blit
  rw [hlen]
  by_cases hin : va - va / 4096 * 4096 ≤ j ∧ j < va - va / 4096 * 4096 + k
  · have hidx : va / 4096 * 4096 + j - va = j - (va - va / 4096 * 4096) := by omega
    rw [if_pos hin, if_pos (by omega), hidx, List.getD_eq_getElem?_getD,
      List.getElem?_take_of_lt (by omega), ← List.getD_eq_getElem?_getD]
  · rw [if_neg hin, if_neg (by omega)]

theorem copyoutLoop_spec {n va : ℕ} {buf : List (BitVec 8)} (h : Ready L d sz s)
    (hrange : va + buf.length ≤ sz) (hn : buf.length ≤ n) :
    wp E (copyoutLoop d n va buf) (CopiesOut d sz va buf s) s := by
  induction n generalizing va buf s with
  | zero =>
    exact ⟨.refl, fun _ hlen => by omega, fun _ => rfl, fun _ => .refl (by omega)⟩
  | succ n ih =>
    unfold copyoutLoop
    by_cases hbuf : buf = []
    · rw [if_pos hbuf, hbuf]
      exact ⟨.refl, fun _ hlen => absurd hlen (Nat.lt_irrefl 0), fun _ => rfl,
        fun _ => .refl (Nat.le_refl va)⟩
    · have hpos : 0 < buf.length := List.length_pos_iff.mpr hbuf
      have hlt := h.lt
      have halign := h.aligned
      have hpage : va / 4096 < pgs sz := by unfold pgs; omega
      have huser : va / 4096 < NUSER := ((h.pages _).mpr hpage).1
      obtain ⟨e, he⟩ := Option.isSome_iff_exists.mp ((h.pages _).mpr hpage).2
      have hdown : PGROUNDDOWN va = va / 4096 * 4096 := rfl
      have hdiv : va / 4096 * 4096 / 4096 = va / 4096 := by omega
      rw [if_neg hbuf]
      dsimp only
      rw [hdown, wp_bind, uva2ka_entry (page_addr_lt (user_lt huser)) (by rw [hdiv]; exact he)]
      by_cases hu : user e = true
      · -- the page is written, and the loop goes on at the next one
        have hx : va / 4096 ≠ sz / 4096 - 2 := by
          intro hx
          rw [hx] at he
          rw [h.guard e he] at hu
          cases hu
        have hwrite : ∀ pg, OnlyUser d s { s with mem := update s.mem (PTE_ADDR e) pg } :=
          fun _ => onlyUser_page (user_lt huser) he hu
        obtain ⟨next, hnext⟩ : ∃ next, next = (va / 4096 + 1) * 4096 := ⟨_, rfl⟩
        have hmod : (va / 4096 * 4096 + PGSIZE) % UINT = next := by
          unfold NUSER at huser
          unfold PGSIZE UINT
          omega
        have hmin : min (PGSIZE - (va - va / 4096 * 4096)) buf.length =
            min (next - va) buf.length := by unfold PGSIZE; omega
        rw [if_pos hu]
        dsimp only
        rw [wp_bind, wp_modify, hmod, hmin]
        set k := min (next - va) buf.length with hk
        have hlen : (buf.drop k).length = buf.length - k := List.length_drop
        have hfill := fun pg => (hwrite pg).fills h.kern
        refine wp_mono (ih (h.fills (hfill _)) (by omega) (by omega)) ?_
        rintro r s' ⟨honly, hguard, hstack, hstored⟩
        rw [hlen] at hguard
        refine ⟨(hwrite _).trans honly fun y hy => (hfill _).entry h.own hy, fun hr _ => ?_,
          fun hva => hstack (by omega), fun hr => ?_⟩
        · by_cases hrest : 0 < buf.length - k
          · have := hguard hr hrest
            omega
          · omega
        · have hrest := hstored hr
          have hfirst : Stores d va (va + k) (fun a => buf.getD (a - va) 0) s _ :=
            stores_blit h.own huser he (Nat.min_le_right _ _) (by omega)
          have hva : va < next := by omega
          rw [hlen] at hrest
          have hsame : ∀ a, next ≤ a → a < next + (buf.length - k) →
              (buf.drop k).getD (a - next) 0 = buf.getD (a - va) 0 := fun a h1 h2 => by
            have hidx : k + (a - next) = a - va := by omega
            rw [List.getD_eq_getElem?_getD, List.getElem?_drop, hidx, ← List.getD_eq_getElem?_getD]
          have hsecond : Stores d next (va + buf.length) (fun a => buf.getD (a - va) 0) _ s' :=
            (hrest.congr hsame).range fun a => by omega
          exact hfirst.trans hsecond (by omega) (Nat.le_of_lt hva)
      · rw [if_neg hu]
        refine ⟨.refl, nofun, fun hva => ?_, nofun⟩
        have hx : va / 4096 = sz / 4096 - 1 := by omega
        rw [hx] at he
        exact absurd (h.stack e he) hu

theorem copyout_spec {va : ℕ} {buf : List (BitVec 8)} (h : Ready L d sz s)
    (hrange : va + buf.length ≤ sz) :
    wp E (copyout d va buf) (CopiesOut d sz va buf s) s :=
  copyoutLoop_spec h hrange (Nat.le_refl _)

/-- The addresses above physical memory and below the devices. -/
def Gap (va : ℕ) : Prop := KERNBASE + PHYSTOP ≤ va ∧ va < DEVSPACE

instance (va : ℕ) : Decidable (Gap va) := inferInstanceAs (Decidable (_ ∧ _))

theorem copyout_unfold {va : ℕ} {buf : List (BitVec 8)} (hbuf : buf ≠ [])
    {Q : Bool → Mem → Prop}
    (h : wp E (uva2ka d (va / 4096 * 4096)) (fun r s' => r = none ∧ Q false s') s) :
    wp E (copyout d va buf) Q s := by
  obtain ⟨n, hn⟩ := Nat.exists_eq_succ_of_ne_zero (mt List.length_eq_zero_iff.mp hbuf)
  unfold copyout
  rw [hn]
  unfold copyoutLoop
  rw [if_neg hbuf]
  dsimp only
  rw [wp_bind]
  refine wp_mono h ?_
  rintro _ s' ⟨rfl, hQ⟩
  exact hQ

/-- `copyout` to the kernel part: there is no page table, or the page is not for the user. -/
theorem copyout_kernel {va : ℕ} {buf : List (BitVec 8)} {Q : Bool → Mem → Prop} (h : Kern s.mem d)
    (hbuf : buf ≠ []) (hlo : KERNBASE ≤ va) (hhi : va < UINT)
    (hgap : Gap va → E .nullDeref) (hQ : ¬ Gap va → Q false s) :
    wp E (copyout d va buf) Q s := by
  refine copyout_unfold hbuf ?_
  have hva : va / 4096 * 4096 < UINT := Nat.lt_of_le_of_lt (Nat.div_mul_le_self va 4096) hhi
  have hdiv : va / 4096 * 4096 / 4096 = va / 4096 := by omega
  unfold KERNBASE at hlo
  unfold UINT at hhi
  by_cases hg : Gap va
  · have htab : tab s.mem d (PDX (va / 4096 * 4096)) = none := by
      rw [PDX_eq hva, hdiv]
      unfold Gap KERNBASE PHYSTOP DEVSPACE at hg
      exact h.gap _ (by omega) (by omega)
    exact (uva2ka_gap htab).mpr (hgap hg)
  · have hkernel : kernelPage (va / 4096) := by
      unfold Gap KERNBASE PHYSTOP DEVSPACE at hg
      unfold kernelPage
      omega
    obtain ⟨e, he⟩ := Option.isSome_iff_exists.mp (h.mapped _ hkernel)
    obtain ⟨hle, hlt⟩ := kernelPage_lt hkernel
    rw [uva2ka_entry hva (by rw [hdiv]; exact he), h.noUser _ hlt hle e he,
      if_neg Bool.false_ne_true]
    exact ⟨rfl, hQ hg⟩

/-! ## The stack pointer -/

theorem nextSp_fits (hsp : sp < KERNBASE) (hfit : arg.length + 1 ≤ sp) :
    nextSp sp arg + (arg.length + 1) ≤ sp ∧ sp < nextSp sp arg + (arg.length + 1) + 4 := by
  have hmod : (sp + UINT - (arg.length + 1)) % UINT = sp - (arg.length + 1) := by
    unfold KERNBASE at hsp
    unfold UINT
    omega
  unfold nextSp
  rw [hmod]
  omega

theorem nextSp_wraps (hlen : arg.length < KERNBASE) (hfit : ¬ arg.length + 1 ≤ sp) :
    KERNBASE ≤ nextSp sp arg ∧ nextSp sp arg < UINT := by
  have hmod : (sp + UINT - (arg.length + 1)) % UINT = sp + UINT - (arg.length + 1) := by
    unfold KERNBASE at hlen
    unfold UINT
    omega
  unfold nextSp
  rw [hmod]
  unfold KERNBASE at hlen ⊢
  unfold UINT
  omega

/-- With the stack pointer in the stack page of an image of size `sz`, some argument wraps around
into the gap. -/
def Wraps (sz : ℕ) : ℕ → List Str → Prop
  | _, [] => False
  | sp, arg :: argv => Gap (nextSp sp arg) ∨
      sz - 4096 ≤ nextSp sp arg ∧ nextSp sp arg < sz ∧ Wraps sz (nextSp sp arg) argv

instance Wraps.decidable (sz : ℕ) : ∀ sp argv, Decidable (Wraps sz sp argv)
  | _, [] => isFalse id
  | sp, arg :: argv =>
    have := Wraps.decidable sz (nextSp sp arg) argv
    inferInstanceAs (Decidable (_ ∨ _ ∧ _ ∧ _))

theorem not_gap_of_lt {va : ℕ} (h : va < KERNBASE) : ¬ Gap va := by
  unfold Gap
  omega

theorem arg_length (arg : Str) : (arg ++ [0]).length = arg.length + 1 := by
  rw [List.length_append, List.length_singleton]

theorem push_spec (h : Ready L d sz s) (hlo : sz - 4096 ≤ sp) (hhi : sp ≤ sz)
    (hfit : arg.length + 1 ≤ sp) :
    wp E (copyout d (nextSp sp arg) (arg ++ [0])) (fun r s' => OnlyUser d s s' ∧
      (r = true ↔ sz - 4096 ≤ nextSp sp arg) ∧ (r = true →
        Stores d (nextSp sp arg) (nextSp sp arg + (arg ++ [0]).length)
          (fun a => (arg ++ [0]).getD (a - nextSp sp arg) 0) s s')) s := by
  have hlt := h.lt
  have hroom := h.room
  obtain ⟨hle, hge⟩ := nextSp_fits (Nat.lt_of_le_of_lt hhi hlt) hfit
  have hlen := arg_length arg
  refine wp_mono (copyout_spec h (by omega)) ?_
  rintro r s' ⟨honly, hguard, hstack, hstored⟩
  refine ⟨honly, ⟨fun hr => ?_, hstack⟩, hstored⟩
  have := hguard hr (by omega)
  omega

/-- The strings `argv` lie at the addresses `ptrs`, one below the other from `sp` down to `low`. -/
def Laid (mem : Frame → Bytes) (d : Frame) : ℕ → List Str → List ℕ → ℕ → Prop
  | sp, [], [], low => low = sp
  | sp, arg :: argv, p :: ptrs, low => p % 4 = 0 ∧ p + (arg.length + 1) ≤ sp ∧
      HasBytes mem d p (arg ++ [0]) ∧ Laid mem d p argv ptrs low
  | _, _, _, _ => False

/-- What pushing the arguments from `sp` on has done. -/
structure Pushed (d : Frame) (sz sp : ℕ) (argv : List Str) (ptrs : List ℕ) (low : ℕ) (s s' : Mem) :
    Prop where
  inPage : sz - 4096 ≤ low
  laid : Laid s'.mem d sp argv ptrs low
  same : ∀ a < KERNBASE, a < sz - 4096 ∨ sp ≤ a → byteAt s'.mem d a = byteAt s.mem d a

theorem Pushed.cons {p low : ℕ} {ptrs : List ℕ} (hsz : sp ≤ KERNBASE) (hp : p % 4 = 0)
    (hfit : p + (arg.length + 1) ≤ sp) (hlo : sz - 4096 ≤ p)
    (hstores : Stores d p (p + (arg ++ [0]).length) (fun a => (arg ++ [0]).getD (a - p) 0) s s')
    (h : Pushed d sz p argv ptrs low s' s'') :
    Pushed d sz sp (arg :: argv) (p :: ptrs) low s s'' := by
  have hlen := arg_length arg
  refine ⟨h.inPage, ⟨hp, hfit, ?_, h.laid⟩, fun a ha hout => ?_⟩
  · refine (hstores.hasBytes (by omega)).congr fun b h1 h2 => h.same b (by omega) (.inr h1)
  · rw [h.same a ha (by omega), hstores a ha, if_neg (by omega)]

/-- As long as no argument wraps into the gap, pushing is safe. -/
theorem pushLoop_safe {ustack : List ℕ} (h : Ready L d sz s) (hlo : sz - 4096 ≤ sp) (hhi : sp ≤ sz)
    (hargs : ∀ a ∈ argv, a.length < KERNBASE) (hw : ¬ Wraps sz sp argv) :
    wp E (pushLoop d sp ustack argv) (fun r s' => OnlyUser d s s' ∧
      ∀ low us, r = some (low, us) →
        ∃ ptrs, us = ustack ++ ptrs ∧ Pushed d sz sp argv ptrs low s s') s := by
  induction argv generalizing sp ustack s with
  | nil =>
    refine ⟨.refl, fun low us hr => ?_⟩
    cases hr
    exact ⟨[], (List.append_nil ustack).symm, hlo, rfl, fun _ _ _ => rfl⟩
  | cons arg argv ih =>
    unfold pushLoop
    refine wp_ite (fun _ => ⟨.refl, nofun⟩) fun _ => ?_
    rw [Wraps, not_or] at hw
    have harg := hargs arg List.mem_cons_self
    rw [wp_bind]
    by_cases hfit : arg.length + 1 ≤ sp
    · refine wp_mono (push_spec h hlo hhi hfit) ?_
      rintro r s₁ ⟨honly, hr, hstored⟩
      refine wp_ite (fun hok => ?_) fun _ => ⟨honly, nofun⟩
      have hlo' := hr.mp hok
      have hlt := Nat.lt_of_le_of_lt hhi h.lt
      have hle := (nextSp_fits hlt hfit).1
      have hfill := honly.fills h.kern
      refine wp_mono (ih (h.fills hfill) hlo' (by omega)
        (fun a ha => hargs a (List.mem_cons_of_mem _ ha))
        fun hw' => hw.2 ⟨hlo', by omega, hw'⟩) ?_
      rintro r s₂ ⟨honly', hdone⟩
      refine ⟨honly.trans honly' fun x hx => hfill.entry h.own hx, fun low us hr => ?_⟩
      obtain ⟨ptrs, rfl, hpushed⟩ := hdone low us hr
      refine ⟨nextSp sp arg :: ptrs, List.append_assoc .., ?_⟩
      exact .cons (Nat.le_of_lt hlt) (Nat.mul_mod_left _ 4) hle hlo' (hstored hok) hpushed
    · obtain ⟨hlow, hup⟩ := nextSp_wraps harg hfit
      exact copyout_kernel h.kern (by simp) hlow hup (fun hg => absurd hg hw.1)
        fun _ => ⟨.refl, nofun⟩

/-- An argument that wraps into the gap makes `uva2ka` follow a null pointer. -/
theorem pushLoop_wraps {ustack : List ℕ} (h : Ready L d sz s) (hlo : sz - 4096 ≤ sp)
    (hhi : sp ≤ sz) (hargs : ∀ a ∈ argv, a.length < KERNBASE)
    (hargc : ustack.length + argv.length ≤ MAXARG) (hw : Wraps sz sp argv) :
    wp (· = .nullDeref) (pushLoop d sp ustack argv) (fun _ _ => False) s := by
  induction argv generalizing sp ustack s with
  | nil => exact hw.elim
  | cons arg argv ih =>
    have harg := hargs arg List.mem_cons_self
    rw [List.length_cons] at hargc
    unfold pushLoop
    rw [if_neg (by omega), wp_bind]
    by_cases hfit : arg.length + 1 ≤ sp
    · have hlt := Nat.lt_of_le_of_lt hhi h.lt
      have hle := (nextSp_fits hlt hfit).1
      obtain ⟨hlo', hhi', hw'⟩ := hw.resolve_left (not_gap_of_lt (by omega))
      refine wp_mono (push_spec h hlo hhi hfit) ?_
      rintro r s₁ ⟨honly, hr, -⟩
      rw [if_pos (hr.mpr hlo')]
      refine ih (h.fills (honly.fills h.kern)) hlo' (Nat.le_of_lt hhi')
        (fun a ha => hargs a (List.mem_cons_of_mem _ ha)) ?_ hw'
      rw [List.length_append, List.length_singleton]
      omega
    · obtain ⟨hlow, hup⟩ := nextSp_wraps harg hfit
      refine copyout_kernel h.kern (by simp) hlow hup (fun _ => rfl) fun hg => ?_
      obtain ⟨-, hhi', -⟩ := hw.resolve_left hg
      have := h.lt
      omega

/-! ## All arguments -/

namespace Laid

variable {mem : Frame → Bytes} {ptrs : List ℕ} {low : ℕ}

theorem length (h : Laid mem d sp argv ptrs low) : ptrs.length = argv.length := by
  induction argv generalizing sp ptrs with
  | nil =>
    cases ptrs with
    | nil => rfl
    | cons p ptrs => exact h.elim
  | cons arg argv ih =>
    cases ptrs with
    | nil => exact h.elim
    | cons p ptrs =>
      rw [List.length_cons, List.length_cons, ih h.2.2.2]

theorem le (h : Laid mem d sp argv ptrs low) : low ≤ sp := by
  induction argv generalizing sp ptrs with
  | nil =>
    cases ptrs with
    | nil => exact Nat.le_of_eq h
    | cons p ptrs => exact h.elim
  | cons arg argv ih =>
    cases ptrs with
    | nil => exact h.elim
    | cons p ptrs =>
      have := ih h.2.2.2
      have := h.2.1
      omega

theorem aligned (h : Laid mem d sp argv ptrs low) (hsp : sp % 4 = 0) : low % 4 = 0 := by
  induction argv generalizing sp ptrs with
  | nil =>
    cases ptrs with
    | nil => exact h ▸ hsp
    | cons p ptrs => exact h.elim
  | cons arg argv ih =>
    cases ptrs with
    | nil => exact h.elim
    | cons p ptrs => exact ih h.2.2.2 h.1

theorem string (h : Laid mem d sp argv ptrs low) {k p : ℕ} (harg : argv[k]? = some arg)
    (hp : ptrs[k]? = some p) :
    HasBytes mem d p (arg ++ [0]) ∧ low ≤ p ∧ p + (arg.length + 1) ≤ sp := by
  induction argv generalizing sp ptrs k with
  | nil => cases harg
  | cons arg' argv ih =>
    cases ptrs with
    | nil => cases hp
    | cons p' ptrs =>
      obtain ⟨-, hfit, hbytes, hrest⟩ := h
      cases k with
      | zero =>
        cases harg
        cases hp
        exact ⟨hbytes, hrest.le, hfit⟩
      | succ k =>
        obtain ⟨h1, h2, h3⟩ := ih hrest harg hp
        exact ⟨h1, h2, by omega⟩

theorem below (h : Laid mem d sp argv ptrs low) {j k p q : ℕ} {arg' : Str} (hjk : j < k)
    (hp : ptrs[j]? = some p) (harg : argv[k]? = some arg') (hq : ptrs[k]? = some q) :
    q + (arg'.length + 1) ≤ p := by
  induction argv generalizing sp ptrs j k with
  | nil => cases harg
  | cons arg argv ih =>
    cases ptrs with
    | nil => cases hp
    | cons p' ptrs =>
      obtain ⟨k, rfl⟩ : ∃ i, k = i + 1 := ⟨k - 1, by omega⟩
      cases j with
      | zero =>
        cases hp
        exact (h.2.2.2.string harg hq).2.2
      | succ j => exact ih h.2.2.2 (by omega) hp harg hq

end Laid

/-- The stack that `main` finds in an image of size `sz`: at `esp`, in the stack page, a return
address, the number of arguments and a pointer to the words after it, which point to copies of the
arguments and end with 0. The copies are apart from each other and above the words, and the rest of
the image is as it was. -/
structure ArgStack (d : Frame) (sz : ℕ) (argv : List Str) (esp : ℕ) (ptrs : List ℕ) (s s' : Mem) :
    Prop where
  aligned : esp % 4 = 0
  inPage : sz - 4096 ≤ esp ∧ esp + 4 * (argv.length + 4) ≤ sz
  length : ptrs.length = argv.length
  words : HasBytes s'.mem d esp (bytesOf ([0xffffffff, argv.length, esp + 12] ++ ptrs ++ [0]))
  strings : ∀ (k : ℕ) (arg : Str) (p : ℕ), argv[k]? = some arg → ptrs[k]? = some p →
    HasBytes s'.mem d p (arg ++ [0]) ∧ esp + 4 * (argv.length + 4) ≤ p ∧ p + (arg.length + 1) ≤ sz
  disjoint : ∀ (j k p q : ℕ) (arg : Str), j < k → ptrs[j]? = some p → argv[k]? = some arg →
    ptrs[k]? = some q → q + (arg.length + 1) ≤ p
  image : ∀ a < sz - 4096, byteAt s'.mem d a = byteAt s.mem d a

theorem words_length (argc sp : ℕ) (ptrs : List ℕ) :
    (bytesOf ([0xffffffff, argc, sp] ++ ptrs ++ [0])).length = 4 * (ptrs.length + 4) := by
  rw [bytesOf_length]
  simp only [List.length_append, List.length_cons, List.length_nil]
  omega

theorem Pushed.argStack {ptrs : List ℕ} {low esp : ℕ} (h : Ready L d sz s)
    (hpushed : Pushed d sz sz argv ptrs low s s') (hesp : esp + 4 * (argv.length + 4) = low)
    (hlo : sz - 4096 ≤ esp)
    (hstores : Stores d esp (esp + 4 * (argv.length + 4)) (fun a =>
      (bytesOf ([0xffffffff, argv.length, esp + 12] ++ ptrs ++ [0])).getD (a - esp) 0) s' s'') :
    ArgStack d sz argv esp ptrs s s'' := by
  have hlt := h.lt
  have haligned := h.aligned
  have hroom := h.room
  have hle := hpushed.laid.le
  have hlow := hpushed.laid.aligned (by omega)
  have hlen := hpushed.laid.length
  have hwords := words_length argv.length (esp + 12) ptrs
  rw [hlen] at hwords
  refine ⟨by omega, ⟨hlo, by omega⟩, hlen, ?_, fun k arg p harg hp => ?_,
    fun j k p q arg hjk hp harg hq => hpushed.laid.below hjk hp harg hq, fun a ha => ?_⟩
  · rw [← hwords] at hstores
    exact hstores.hasBytes (by omega)
  · obtain ⟨hbytes, h1, h2⟩ := hpushed.laid.string harg hp
    refine ⟨hbytes.congr fun b h3 h4 => ?_, by omega, h2⟩
    rw [arg_length] at h4
    rw [hstores b (by omega), if_neg (by omega)]
  · rw [hstores a (by omega), if_neg (by omega), hpushed.same a (by omega) (.inl ha)]

theorem pushArgs_safe (h : Ready L d sz s) (hargc : argv.length < MAXARG)
    (hargs : ∀ a ∈ argv, a.length < KERNBASE) (hw : ¬ Wraps sz sz argv) :
    wp E (pushArgs d sz argv) (fun r s' => OnlyUser d s s' ∧
      ∀ esp, r = some esp → ∃ ptrs, ArgStack d sz argv esp ptrs s s') s := by
  have hroom := h.room
  have hlt := h.lt
  unfold pushArgs
  rw [wp_bind]
  refine wp_mono (pushLoop_safe h (Nat.sub_le _ _) (Nat.le_refl _) hargs hw) ?_
  rintro r s₁ ⟨honly, hdone⟩
  match r with
  | none => exact ⟨honly, nofun⟩
  | some (low, ptrs) =>
    obtain ⟨_, rfl, hpushed⟩ := hdone low ptrs rfl
    have hlen := hpushed.laid.length
    have hlo := hpushed.inPage
    have hhi := hpushed.laid.le
    have hfill := honly.fills h.kern
    obtain ⟨esp, hesp⟩ : ∃ esp, esp + 4 * (argv.length + 4) = low :=
      ⟨low - 4 * (argv.length + 4), by unfold MAXARG at hargc; omega⟩
    have hsp : (low + UINT - (3 + ptrs.length + 1) * 4) % UINT = esp := by
      unfold KERNBASE at hlt
      unfold UINT
      omega
    have hargv : (low + UINT - (ptrs.length + 1) * 4) % UINT = esp + 12 := by
      unfold KERNBASE at hlt
      unfold UINT
      omega
    dsimp only
    rw [hsp, hargv, hlen, wp_bind]
    have hwords := words_length argv.length (esp + 12) ptrs
    rw [hlen] at hwords
    refine wp_mono (copyout_spec (h.fills hfill) (by omega)) ?_
    rintro r s₂ ⟨honly', hguard, -, hstored⟩
    have htrans := honly.trans honly' fun x hx => hfill.entry h.own hx
    refine wp_ite (fun hr => ⟨htrans, ?_⟩) fun _ => ⟨htrans, nofun⟩
    rintro esp' hesp'
    obtain rfl : esp = esp' := Option.some.inj hesp'
    have hlow : sz - 4096 ≤ esp := by
      have := hguard hr (by omega)
      unfold MAXARG at hargc
      omega
    have hstores := hstored hr
    rw [hwords] at hstores
    exact ⟨ptrs, hpushed.argStack h hesp hlow hstores⟩

theorem pushArgs_wraps (h : Ready L d sz s) (hargc : argv.length < MAXARG)
    (hargs : ∀ a ∈ argv, a.length < KERNBASE) (hw : Wraps sz sz argv) :
    wp (· = .nullDeref) (pushArgs d sz argv) (fun _ _ => False) s := by
  have hlen : ([] : List ℕ).length + argv.length ≤ MAXARG := by
    rw [List.length_nil]
    omega
  unfold pushArgs
  rw [wp_bind]
  exact wp_mono (pushLoop_wraps h (Nat.sub_le _ _) (Nat.le_refl _) hargs hlen hw) fun _ _ => False.elim

/-! ## exec as a whole -/

theorem pushArgs_spec (h : Ready L d sz s) (hargc : argv.length < MAXARG)
    (hargs : ∀ a ∈ argv, a.length < KERNBASE) (hE : Wraps sz sz argv → E .nullDeref) :
    wp E (pushArgs d sz argv) (fun r s' => OnlyUser d s s' ∧
      ∀ esp, r = some esp → ∃ ptrs, ArgStack d sz argv esp ptrs s s') s := by
  by_cases hw : Wraps sz sz argv
  · refine wp_mono (wp_weaken (pushArgs_wraps h hargc hargs hw) ?_) fun _ _ => False.elim
    rintro e rfl
    exact hE hw
  · exact pushArgs_safe h hargc hargs hw

theorem ArgStack.congr {esp : ℕ} {ptrs : List ℕ} (h : ArgStack d sz argv esp ptrs s s')
    (hsz : sz ≤ KERNBASE) (hsame : ∀ a < KERNBASE, byteAt s''.mem d a = byteAt s'.mem d a) :
    ArgStack d sz argv esp ptrs s s'' where
  aligned := h.aligned
  inPage := h.inPage
  length := h.length
  words := h.words.congr fun b _ hb => hsame b (by
    have hend := h.inPage.2
    rw [words_length, h.length] at hb
    omega)
  strings k arg p harg hp := by
    obtain ⟨hbytes, h1, h2⟩ := h.strings k arg p harg hp
    refine ⟨hbytes.congr fun b h3 h4 => hsame b ?_, h1, h2⟩
    rw [arg_length] at h4
    omega
  disjoint := h.disjoint
  image a ha := (hsame a (by omega)).trans (h.image a ha)

/-! ## Arguments of any length -/

/-- Whatever the address, `uva2ka` returns a page for the user. -/
theorem uva2ka_user {va : ℕ} (hva : va < UINT) : wp (fun _ => True) (uva2ka d va) (fun r s' =>
    s' = s ∧ ∀ f, r = some f → ∃ e, entry s.mem d (va / 4096) = some e ∧ user e = true ∧
      PTE_ADDR e = f) s := by
  unfold uva2ka
  rw [wp_bind, wp_walkpgdir_false]
  cases ht : tab s.mem d (PDX va) with
  | none => trivial
  | some t =>
    rw [Option.map_some, wp_bind, wp_load]
    refine wp_ite (fun _ => ⟨rfl, nofun⟩) fun hp => wp_ite (fun _ => ⟨rfl, nofun⟩) fun hu => ?_
    refine ⟨rfl, fun f hf => ⟨_, ?_, not_not.mp hu, Option.some.inj hf⟩⟩
    unfold entry
    rw [PDX_eq hva] at ht
    rw [PTX_eq] at hp ⊢
    rw [ht, Option.bind_some, if_pos (not_not.mp hp)]

theorem copyoutLoop_onlyUser {n va : ℕ} {buf : List (BitVec 8)} (h : Ready L d sz s)
    (hva : va < UINT) :
    wp (fun _ => True) (copyoutLoop d n va buf) (fun _ s' => OnlyUser d s s') s := by
  induction n generalizing va buf s with
  | zero => exact .refl
  | succ n ih =>
    have hdown : PGROUNDDOWN va < UINT := Nat.lt_of_le_of_lt (Nat.div_mul_le_self va 4096) hva
    unfold copyoutLoop
    refine wp_ite (fun _ => .refl) fun _ => ?_
    dsimp only
    rw [wp_bind]
    refine wp_mono (uva2ka_user hdown) ?_
    rintro r _ ⟨rfl, hr⟩
    match r with
    | none => exact .refl
    | some pa0 =>
      obtain ⟨e, he, hu, rfl⟩ := hr pa0 rfl
      have hx : PGROUNDDOWN va / 4096 < NPAGES := by
        unfold UINT at hdown
        unfold NPAGES
        omega
      have hwrite : ∀ pg : Bytes, OnlyUser d _ _ := fun pg => @onlyUser_page _ _ _ _ pg hx he hu
      have hfill := fun pg => (hwrite pg).fills h.kern
      dsimp only
      rw [wp_bind, wp_modify]
      refine wp_mono (ih (h.fills (hfill _)) (Nat.mod_lt _ (by decide))) fun _ s' hrest => ?_
      exact (hwrite _).trans hrest fun y hy => (hfill _).entry h.own hy

theorem nextSp_lt (sp : ℕ) (arg : Str) : nextSp sp arg < UINT := by
  unfold nextSp
  exact Nat.lt_of_le_of_lt (Nat.div_mul_le_self _ 4) (Nat.mod_lt _ (by decide))

theorem pushLoop_onlyUser {ustack : List ℕ} (h : Ready L d sz s) :
    wp (fun _ => True) (pushLoop d sp ustack argv) (fun _ s' => OnlyUser d s s') s := by
  induction argv generalizing sp ustack s with
  | nil => exact .refl
  | cons arg argv ih =>
    unfold pushLoop
    refine wp_ite (fun _ => .refl) fun _ => ?_
    rw [wp_bind]
    refine wp_mono (copyoutLoop_onlyUser h (nextSp_lt sp arg)) fun r s₁ hone => ?_
    have hfill := hone.fills h.kern
    refine wp_ite (fun _ => ?_) fun _ => hone
    refine wp_mono (ih (h.fills hfill)) fun _ s' hrest => ?_
    exact hone.trans hrest fun y hy => hfill.entry h.own hy

theorem pushArgs_onlyUser (h : Ready L d sz s) :
    wp (fun _ => True) (pushArgs d sz argv) (fun _ s' => OnlyUser d s s') s := by
  unfold pushArgs
  rw [wp_bind]
  refine wp_mono (pushLoop_onlyUser h) fun r s₁ hone => ?_
  match r with
  | none => exact hone
  | some (sp, ustack) =>
    have hfill := hone.fills h.kern
    dsimp only
    rw [wp_bind]
    refine wp_mono (copyoutLoop_onlyUser (h.fills hfill) (Nat.mod_lt _ (by decide))) fun r s' hrest => ?_
    have hall : OnlyUser d s s' := hone.trans hrest fun y hy => hfill.entry h.own hy
    exact wp_ite (fun _ => hall) fun _ => hall

/-! ## The whole -/

/-- `exec` replaces the address space of the caller by a new one, or leaves it alone. -/
theorem exec_spec {ip : Option File} {old : Frame} (h : Own L s (vm s.mem old))
    (hargc : argv.length < MAXARG) (hargs : ∀ a ∈ argv, a.length < KERNBASE)
    (hE : ∀ sz < KERNBASE, Wraps sz sz argv → E .nullDeref) :
    wp E (exec L ip argv old) (fun r s' =>
      match r with
      | none => Moves s 0 s' 0
      | some (im, esp) => Moves s (vm s.mem old) s' (vm s'.mem im.pgdir) ∧
          Ready L im.pgdir im.sz s' ∧ ∃ file s₁ ptrs, ip = some file ∧
            loadImage L file s = .ok (some im, s₁) ∧
            ArgStack im.pgdir im.sz argv esp ptrs s₁ s') s := by
  unfold exec
  cases ip with
  | none => exact Lib.Moves.refl
  | some ip =>
    have h0 : Own L s (0 + vm s.mem old) := by rwa [zero_add]
    dsimp only
    rw [wp_bind]
    refine wp_mono (wp_run (loadImage_spec h0.left)) ?_
    rintro r s₁ ⟨hload, hmake, -⟩
    match r with
    | none => exact hmake.failed rfl
    | some im =>
      have hnew := hmake.moves im rfl
      have hready := hmake.ready im rfl
      have hown := h0.moves hnew
      dsimp only
      rw [wp_bind]
      refine wp_mono (pushArgs_spec hready hargc hargs (hE im.sz hready.lt)) ?_
      rintro r s₂ ⟨honly, hstack⟩
      have hfill := honly.fills hready.kern
      have hpush := hfill.moves hready.own
      have hready₂ := hready.fills hfill
      have hmoves : Moves s 0 s₂ (vm s₂.mem im.pgdir) := hnew.trans hpush
      match r with
      | none =>
        dsimp only
        rw [wp_bind]
        refine wp_mono (bad_spec hready₂.own) ?_
        rintro _ s₃ ⟨-, hfree⟩
        exact hmoves.trans hfree
      | some sp =>
        obtain ⟨ptrs, hstack⟩ := hstack sp rfl
        have hown₂ := h0.moves hmoves
        -- the old address space is as it was
        have hold : vm s₂.mem old = vm s.mem old := vm_congr fun f hf =>
          h0.same hmoves (Multiset.mem_add.mpr (.inl hf))
        rw [← hold, add_comm] at hown₂
        dsimp only
        rw [wp_bind]
        refine wp_mono (freevm_spec hown₂.left) ?_
        rintro _ s₃ ⟨hfree, -⟩
        -- and freeing it does not touch the new one
        have hkept : ∀ f ∈ vm s₂.mem im.pgdir, s₃.mem f = s₂.mem f := fun f hf =>
          hown₂.same hfree hf
        have hsame : ∀ f ∈ tables s₂.mem im.pgdir, s₃.mem f = s₂.mem f := fun f hf =>
          hkept f (Multiset.mem_add.mpr (.inl hf))
        have hown₃ := hown₂.moves hfree
        rw [zero_add] at hown₃
        refine ⟨?_, hready₂.congr hown₃ hsame, ip, s₁, ptrs, rfl, hload,
          hstack.congr (Nat.le_of_lt hready.lt) fun a ha =>
            byteAt_congr (view_of_vm hkept (user_of_addr ha))⟩
        rw [vm_congr hsame]
        have hall : Moves s (vm s.mem old) s₂ (vm s₂.mem old + vm s₂.mem im.pgdir) := by
          rw [hold, add_comm]
          have := hmoves.add (X := vm s.mem old)
          rwa [zero_add] at this
        have hdone := hfree.add (X := vm s₂.mem im.pgdir)
        rw [zero_add] at hdone
        exact hall.trans hdone

/-- For every file that `exec` can load and every admissible argument vector: `exec` copies the
arguments only to user pages of the new image, and `uva2ka` never follows a null pointer, exactly
when no argument wraps the stack pointer around into the gap. -/
theorem exec_args_safe_iff {im : Image} (h : Own L s 0)
    (hload : loadImage L ip s = .ok (some im, s')) (hargc : argv.length < MAXARG)
    (hargs : ∀ a ∈ argv, a.length < KERNBASE) :
    wp (fun _ => False) (pushArgs im.pgdir im.sz argv) (fun _ s'' => OnlyUser im.pgdir s' s'') s' ↔
      ¬ Wraps im.sz im.sz argv := by
  have hready : Ready L im.pgdir im.sz s' :=
    (wp_ok (loadImage_spec (E := fun _ => False) h) hload).1.ready im rfl
  constructor
  · intro hsafe hw
    exact wp_absurd hsafe (pushArgs_wraps hready hargc hargs hw) (fun _ hf => hf.elim)
      fun _ _ _ => id
  · intro hw
    exact wp_mono (pushArgs_safe hready hargc hargs hw) fun _ _ => And.left

/-! ## A program without segments -/

/-- An ELF header with no program headers. -/
def emptyElf : File := ⟨52, putLE (fun _ => 0) 0 4 ELF_MAGIC⟩

theorem emptyElf_loads : ∃ im s', loadImage smallKernel emptyElf freshMem = .ok (some im, s') ∧
    im.sz = 8192 ∧ Ready smallKernel im.pgdir im.sz s' := by
  have hel : readElfhdr emptyElf = some ⟨ELF_MAGIC, 0, 0, 0⟩ := rfl
  have hlen : 70 ≤ freshMem.freelist.length := Nat.le_of_eq (framesFrom_length 4096 70).symm
  obtain ⟨r, s', hload, hmakes, im, rfl, hsz⟩ :=
    wp_returns (loadImage_empty freshMem_own hel rfl rfl rfl hlen)
  exact ⟨im, s', hload, hsz, hmakes.ready im rfl⟩

/-- A one-letter argument is pushed safely. -/
theorem exec_args_safe_iff_letter :
    ∃ im s', loadImage smallKernel emptyElf freshMem = .ok (some im, s') ∧
      wp (fun _ => False) (pushArgs im.pgdir im.sz [[0x61]])
        (fun _ s'' => OnlyUser im.pgdir s' s'') s' := by
  obtain ⟨im, s', hload, hsz, -⟩ := emptyElf_loads
  refine ⟨im, s', hload, (exec_args_safe_iff freshMem_own hload (by decide) (by decide)).mpr ?_⟩
  rw [hsz]
  decide

/-- An argument of 33562627 letters, which takes the stack pointer from the top of the two pages to
four bytes below the devices. -/
@[irreducible] def longArg : Str := List.replicate 33562627 0x61

theorem longArg_length : longArg.length = 33562627 := by
  unfold longArg
  rw [List.length_replicate]

/-- Pushing it follows a null pointer. -/
theorem long_argument_null_pointer :
    ∃ im s', loadImage smallKernel emptyElf freshMem = .ok (some im, s') ∧
      longArg.length < KERNBASE ∧ pushArgs im.pgdir im.sz [longArg] s' = .error .nullDeref := by
  obtain ⟨im, s', hload, hsz, hready⟩ := emptyElf_loads
  have hlen : longArg.length < KERNBASE := by
    rw [longArg_length]
    decide
  have hw : Wraps im.sz im.sz [longArg] := by
    refine .inl ?_
    unfold nextSp
    rw [hsz, longArg_length]
    decide
  obtain ⟨e, hfault, rfl⟩ := wp_faults (pushArgs_wraps hready (by decide)
    (fun a ha => by rwa [List.mem_singleton.mp ha]) hw)
  exact ⟨im, s', hload, hlen, hfault⟩

end DuckoUnix.Exec
