import DuckoUnix.Lib.Run
import Mathlib.Data.List.Nodup
import Mathlib.Logic.Function.Basic

/-!
# Spin-locks

`spinlock.c` on any number of processors with any number of locks. A step is one access to a lock,
with the code that follows it up to the next one; `readeflags` and `cli` in `pushcli` are one step, as
an interrupt between the two returns to the same flags. Interrupts come whenever they are enabled,
and their handlers take and give back locks as any other code does.

`holding` reads the two fields of a lock one after the other while other processors change them. It
still tells exactly whether the processor holds the lock.
-/

namespace DuckoUnix.Spin

open Lib Function

inductive Panic (L : Type)
  | interruptible
  | popcli
  | acquire (l : L)
  | release (l : L)

/-- Where a processor is. -/
inductive Pc (L : Type)
  /-- outside of `spinlock.c`; -/
  | out
  /-- in the `holding` of `acquire` or `release`, before it reads `lock->locked`, -/
  | holding (acq : Bool) (l : L)
  /-- or has read that it is set, before it reads `lock->cpu`; -/
  | holdingCpu (acq : Bool) (l : L)
  /-- in `acquire`, before the `xchg`, -/
  | xchg (l : L)
  /-- and before `lk->cpu = mycpu()`; -/
  | got (l : L)
  /-- in `release`, before `lk->cpu = 0`, -/
  | clear (l : L)
  /-- and before `lk->locked` is set to 0. -/
  | unlock (l : L)
  | panic (e : Panic L)

/-- A processor, with its interrupt flag. `held` are the locks that it has acquired and not released,
and `base` is the interrupt flag as it would be without them; no code reads the two. -/
structure Core (L : Type) where
  intr : Bool
  ncli : ℕ
  intena : Bool
  pc : Pc L
  held : List L
  base : Bool

/-- The fields of the locks, and the processors. -/
structure Sys (n : ℕ) (L : Type) where
  locked : L → Bool
  cpu : L → Option (Fin n)
  core : Fin n → Core L

variable {n : ℕ} {L : Type}

def Core.pushcli (x : Core L) : Core L :=
  { x with intr := false, ncli := x.ncli + 1, intena := if x.ncli = 0 then x.intr else x.intena }

/-- `popcli`, before the processor goes on at `x.pc`. -/
def Core.popcli (x : Core L) : Core L :=
  if x.intr then { x with pc := .panic .interruptible }
  else if x.ncli = 0 then { x with pc := .panic .popcli }
  else { x with ncli := x.ncli - 1, intr := decide (x.ncli = 1) && x.intena }

/-- The end of `holding`, which returns `r`, and the test of its caller. -/
def Core.answer (x : Core L) (acq : Bool) (l : L) (r : Bool) : Core L :=
  { x with
    pc := match acq, r with
      | true, true => .panic (.acquire l)
      | true, false => .xchg l
      | false, true => .clear l
      | false, false => .panic (.release l) }.popcli

def Sys.set (s : Sys n L) (c : Fin n) (x : Core L) : Sys n L := { s with core := update s.core c x }

variable [DecidableEq L]

/-- A step inside of `acquire` or `release`. -/
def advance (s : Sys n L) (c : Fin n) : Option (Sys n L) :=
  let x := s.core c
  match x.pc with
  | .out => none
  | .holding acq l =>
    if s.locked l then some (s.set c { x with pc := .holdingCpu acq l })
    else some (s.set c (x.answer acq l false))
  | .holdingCpu acq l => some (s.set c (x.answer acq l (decide (s.cpu l = some c))))
  | .xchg l =>
    if s.locked l then some s
    else some ({ s with locked := update s.locked l true }.set c { x with pc := .got l })
  | .got l =>
    some ({ s with cpu := update s.cpu l (some c) }.set c { x with pc := .out, held := l :: x.held })
  | .clear l => some ({ s with cpu := update s.cpu l none }.set c { x with pc := .unlock l })
  | .unlock l =>
    some ({ s with locked := update s.locked l false }.set c
      { x with pc := .out, held := x.held.erase l }.popcli)
  | .panic _ => none

inductive Act (n : ℕ) (L : Type)
  | acquire (c : Fin n) (l : L)
  | release (c : Fin n) (l : L)
  | advance (c : Fin n)
  /-- an interrupt, or a `cli` -/
  | interrupt (c : Fin n)
  /-- the return from an interrupt, or the `sti` of `scheduler` -/
  | enable (c : Fin n)
  /-- `swtch` to a thread, and `mycpu()->intena = intena` at the end of its `sched` -/
  | swtch (c : Fin n) (intena : Bool)

/-- A step outside of `spinlock.c`. -/
def Sys.out (s : Sys n L) (c : Fin n) (f : Core L → Option (Core L)) : Option (Sys n L) :=
  match (s.core c).pc with
  | .out => (f (s.core c)).map (s.set c)
  | _ => none

def step (s : Sys n L) : Act n L → Option (Sys n L)
  | .acquire c l => s.out c fun x => some { x.pushcli.pushcli with pc := .holding true l }
  | .release c l => s.out c fun x => some { x.pushcli with pc := .holding false l }
  | .advance c => advance s c
  | .interrupt c => s.out c fun x =>
    if x.intr then some { x with intr := false, base := false } else none
  | .enable c => s.out c fun x =>
    if x.ncli = 0 then some { x with intr := true, base := true } else none
  | .swtch c intena => s.out c fun x =>
    if x.ncli = 1 then some { x with intena := intena, base := intena } else none

/-- After `initlock`, with interrupts still disabled. -/
def boot : Sys n L where
  locked := fun _ => false
  cpu := fun _ => none
  core := fun _ => ⟨false, 0, false, .out, [], false⟩

/-! ## The invariant -/

/-- The calls of `pushcli` beyond those of the locks that the processor holds. -/
def Pc.pushes : Pc L → ℕ
  | .holding acq _ => acq.toNat + 1
  | .holdingCpu acq _ => acq.toNat + 1
  | .xchg _ => 1
  | .got _ => 1
  | .panic (.acquire _) => 1
  | _ => 0

def Pc.Fits (held : List L) : Pc L → Prop
  | .got l => l ∉ held
  | .clear l => l ∈ held
  | .unlock l => l ∈ held
  | .panic (.acquire l) => l ∈ held
  | .panic (.release l) => l ∉ held
  | .panic _ => False
  | _ => True

/-- `owner` says who has won the `xchg` of a lock. -/
structure Core.Ok (owner : L → Option (Fin n)) (c : Fin n) (x : Core L) : Prop where
  count : x.ncli = x.held.length + x.pc.pushes
  intr : x.intr = (decide (x.ncli = 0) && x.base)
  intena : x.ncli ≠ 0 → x.intena = x.base
  nodup : x.held.Nodup
  owns : ∀ l, owner l = some c ↔ l ∈ x.held ∨ x.pc = .got l
  fits : x.pc.Fits x.held

/-- The lock has the processor in its field `cpu`. -/
def Core.Shown (x : Core L) (l : L) : Prop := l ∈ x.held ∧ x.pc ≠ .unlock l

structure Inv (owner : L → Option (Fin n)) (s : Sys n L) : Prop where
  core : ∀ c, (s.core c).Ok owner c
  locked : ∀ l, s.locked l = (owner l).isSome
  cpu : ∀ l c, s.cpu l = some c ↔ (s.core c).Shown l

variable {s s' : Sys n L} {c : Fin n} {x : Core L} {owner owner' : L → Option (Fin n)} {l : L}
  {pc : Pc L} {held : List L} {acq r i e b : Bool}

section Moves

omit [DecidableEq L]

theorem boot_inv : Inv (fun _ => none) (boot : Sys n L) where
  core _ := ⟨rfl, rfl, fun h => absurd rfl h, List.nodup_nil,
    fun _ => iff_of_false (by simp) (by simp [boot]), trivial⟩
  locked _ := rfl
  cpu _ _ := iff_of_false (by simp [boot]) fun h => List.not_mem_nil h.1

/-- A step of one processor. -/
theorem Inv.by (h : Inv owner s) {locked : L → Bool} {cpu : L → Option (Fin n)} (hx : x.Ok owner' c)
    (howner : ∀ l c', c' ≠ c → (owner' l = some c' ↔ owner l = some c'))
    (hlocked : ∀ l, locked l = (owner' l).isSome) (hcpu : ∀ l, cpu l = some c ↔ x.Shown l)
    (hcpu' : ∀ l c', c' ≠ c → (cpu l = some c' ↔ s.cpu l = some c')) :
    Inv owner' ⟨locked, cpu, update s.core c x⟩ where
  core c' := by
    dsimp only
    by_cases e : c' = c
    · rw [e, update_self]
      exact hx
    · rw [update_of_ne e]
      exact { h.core c' with owns := fun l => (howner l c' e).trans ((h.core c').owns l) }
  locked := hlocked
  cpu l c' := by
    dsimp only
    by_cases e : c' = c
    · rw [e, update_self]
      exact hcpu l
    · rw [update_of_ne e]
      exact (hcpu' l c' e).trans (h.cpu l c')

/-- A step that leaves the locks alone. -/
theorem Inv.set (h : Inv owner s) (hx : x.Ok owner c)
    (hshown : ∀ l, x.Shown l ↔ (s.core c).Shown l) : Inv owner (s.set c x) :=
  h.by hx (fun _ _ _ => Iff.rfl) h.locked (fun l => (h.cpu l c).trans (hshown l).symm)
    fun _ _ _ => Iff.rfl

/-- Only the owner of a lock is in its field `cpu`. -/
theorem Inv.eq_of_cpu (h : Inv owner s) (ho : owner l = some c) (c' : Fin n)
    (hc : s.cpu l = some c') : c' = c := by
  have ho' := ((h.core c').owns l).mpr (.inl ((h.cpu l c').mp hc).1)
  exact Option.some.inj (ho'.symm.trans ho)

theorem Inv.flags (h : Inv owner s) (hi : i = (decide ((s.core c).ncli = 0) && b))
    (he : (s.core c).ncli ≠ 0 → e = b) :
    Inv owner (s.set c { s.core c with intr := i, intena := e, base := b }) :=
  h.set { h.core c with intr := hi, intena := he } fun _ => Iff.rfl

theorem Core.Ok.pushcli (h : x.Ok owner c) (pc : Pc L) (hpushes : pc.pushes = x.pc.pushes + 1)
    (hgot : ∀ l, pc = .got l ↔ x.pc = .got l) (hfits : pc.Fits x.held) :
    { x.pushcli with pc := pc }.Ok owner c where
  count := by
    show x.ncli + 1 = x.held.length + pc.pushes
    rw [h.count, hpushes, Nat.add_assoc]
  intr := by simp [Core.pushcli]
  intena _ := by
    show (if x.ncli = 0 then x.intr else x.intena) = x.base
    split_ifs with h0
    · simp [h.intr, h0]
    · exact h.intena h0
  nodup := h.nodup
  owns l := (h.owns l).trans (or_congr_right (hgot l).symm)
  fits := hfits

/-- `popcli` undoes a `pushcli`, and does not panic. -/
theorem Core.Ok.popcli (h : x.Ok owner c) (pc : Pc L)
    (hcount : held.length + pc.pushes + 1 = x.held.length + x.pc.pushes) (hnodup : held.Nodup)
    (howns : ∀ l, owner' l = some c ↔ l ∈ held ∨ pc = .got l) (hfits : pc.Fits held) :
    { x with pc := pc, held := held }.popcli.Ok owner' c ∧
      ∀ l, { x with pc := pc, held := held }.popcli.Shown l ↔ l ∈ held ∧ pc ≠ .unlock l := by
  have hn : x.ncli = held.length + pc.pushes + 1 := by rw [h.count, hcount]
  have hi : x.intr = false := by simp [h.intr, hn]
  have hena := h.intena (by omega)
  have heq : { x with pc := pc, held := held }.popcli = { x with
      pc := pc, held := held, ncli := x.ncli - 1, intr := decide (x.ncli = 1) && x.intena } := by
    unfold Core.popcli
    rw [if_neg (by simp [hi]), if_neg (show x.ncli ≠ 0 by omega)]
  rw [heq]
  refine ⟨⟨?_, ?_, fun _ => hena, hnodup, howns, hfits⟩, fun _ => Iff.rfl⟩
  · show x.ncli - 1 = _
    rw [hn, Nat.add_sub_cancel]
  · show (decide (x.ncli = 1) && x.intena) = (decide (x.ncli - 1 = 0) && x.base)
    rw [hena, decide_eq_decide.mpr (show x.ncli = 1 ↔ x.ncli - 1 = 0 by omega)]

/-- `holding` has come to the right answer. -/
theorem Inv.answer (h : Inv owner s) (hr : r = true ↔ l ∈ (s.core c).held)
    (hpushes : (s.core c).pc.pushes = acq.toNat + 1) (hgot : ∀ l, (s.core c).pc ≠ .got l)
    (hunlock : ∀ l, (s.core c).pc ≠ .unlock l) :
    Inv owner (s.set c ((s.core c).answer acq l r)) := by
  have hc := h.core c
  have hset : ∀ pc : Pc L, pc.pushes = acq.toNat → (∀ k, pc ≠ .got k) → (∀ k, pc ≠ .unlock k) →
      pc.Fits (s.core c).held → Inv owner (s.set c { s.core c with pc := pc }.popcli) := by
    intro pc hp hg hu hfits
    obtain ⟨hok, hs⟩ := hc.popcli pc (by omega) hc.nodup
      (fun k => by rw [hc.owns k, or_iff_left (hgot k), or_iff_left (hg k)]) hfits
    refine h.set hok fun k => (hs k).trans ?_
    exact and_congr_right fun _ => iff_of_true (hu k) (hunlock k)
  cases acq
  all_goals
    cases r
    all_goals exact hset _ rfl (by simp) (by simp) (by simp_all [Pc.Fits])

end Moves

/-! ## Steps -/

/-- The `xchg` wins the lock. -/
theorem Inv.xchg (h : Inv owner s) (hpc : (s.core c).pc = .xchg l) (hl : s.locked l = false) :
    Inv (update owner l (some c)) ({ s with locked := update s.locked l true }.set c
      { s.core c with pc := .got l }) := by
  have hc := h.core c
  have hnone : owner l = none := by simpa [h.locked] using hl
  have hheld : l ∉ (s.core c).held := fun hm => by simpa [hnone] using (hc.owns l).mpr (.inl hm)
  refine h.by ⟨?_, hc.intr, hc.intena, hc.nodup, fun k => ?_, hheld⟩ (fun k c' hne => ?_)
    (fun k => ?_) (fun k => ?_) fun k c' _ => Iff.rfl
  · simpa [hpc, Pc.pushes] using hc.count
  · have := hc.owns k
    grind
  · grind
  · have := h.locked k
    grind
  · rw [h.cpu]
    simp [Core.Shown, hpc]

/-- The end of `acquire`. -/
theorem Inv.got (h : Inv owner s) (hpc : (s.core c).pc = .got l) :
    Inv owner ({ s with cpu := update s.cpu l (some c) }.set c
      { s.core c with pc := .out, held := l :: (s.core c).held }) := by
  have hc := h.core c
  have hheld : l ∉ (s.core c).held := by simpa [hpc, Pc.Fits] using hc.fits
  have ho : owner l = some c := (hc.owns l).mpr (.inr hpc)
  refine h.by ⟨?_, hc.intr, hc.intena, List.nodup_cons.mpr ⟨hheld, hc.nodup⟩, fun k => ?_, trivial⟩
    (fun _ _ _ => Iff.rfl) h.locked (fun k => ?_) fun k c' hne => ?_
  · simpa [hpc, Pc.pushes] using hc.count
  · rw [hc.owns k, hpc]
    simp [or_comm, eq_comm]
  · have := h.cpu k c
    grind [Core.Shown]
  · have := h.eq_of_cpu ho c'
    grind

theorem Inv.clear (h : Inv owner s) (hpc : (s.core c).pc = .clear l) :
    Inv owner ({ s with cpu := update s.cpu l none }.set c { s.core c with pc := .unlock l }) := by
  have hc := h.core c
  have hheld : l ∈ (s.core c).held := by simpa [hpc, Pc.Fits] using hc.fits
  have ho : owner l = some c := (hc.owns l).mpr (.inl hheld)
  refine h.by ⟨?_, hc.intr, hc.intena, hc.nodup, fun k => ?_, hheld⟩ (fun _ _ _ => Iff.rfl) h.locked
    (fun k => ?_) fun k c' hne => ?_
  · simpa [hpc, Pc.pushes] using hc.count
  · simpa [hpc] using hc.owns k
  · have := h.cpu k c
    grind [Core.Shown]
  · have := h.eq_of_cpu ho c'
    grind

/-- The end of `release`. -/
theorem Inv.unlock (h : Inv owner s) (hpc : (s.core c).pc = .unlock l) :
    Inv (update owner l none) ({ s with locked := update s.locked l false }.set c
      { s.core c with pc := .out, held := (s.core c).held.erase l }.popcli) := by
  have hc := h.core c
  have hheld : l ∈ (s.core c).held := by simpa [hpc, Pc.Fits] using hc.fits
  have ho : owner l = some c := (hc.owns l).mpr (.inl hheld)
  have hmem : ∀ k, k ∈ (s.core c).held.erase l ↔ k ≠ l ∧ k ∈ (s.core c).held :=
    fun k => hc.nodup.mem_erase_iff
  have hlen := List.length_erase_add_one hheld
  have howns : ∀ k, update owner l none k = some c ↔
      k ∈ (s.core c).held.erase l ∨ Pc.out = .got k := by
    intro k
    have := hc.owns k
    grind
  obtain ⟨hok, hshown⟩ := hc.popcli .out (by rw [hpc]; exact hlen) (hc.nodup.erase l) howns trivial
  refine h.by hok (fun k c' hne => ?_) (fun k => ?_) (fun k => ?_) fun k c' _ => Iff.rfl
  · grind
  · have := h.locked k
    grind
  · rw [h.cpu, hshown, hmem]
    grind [Core.Shown]

/-- A step inside of `acquire` or `release` keeps the invariant. -/
theorem Inv.advance (h : Inv owner s) (hs : advance s c = some s') : ∃ owner', Inv owner' s' := by
  have hc := h.core c
  cases hpc : (s.core c).pc
  all_goals simp only [Spin.advance, hpc, reduceCtorEq, Option.some.injEq] at hs
  case holding acq l =>
    split_ifs at hs with hl
    · cases hs
      refine ⟨owner, h.set ⟨by simpa [hpc, Pc.pushes] using hc.count, hc.intr, hc.intena, hc.nodup,
        fun k => by simpa [hpc] using hc.owns k, trivial⟩ fun k => ?_⟩
      simp [Core.Shown, hpc]
    · cases hs
      refine ⟨owner, h.answer (iff_of_false Bool.false_ne_true fun hm => hl ?_) (by rw [hpc]; rfl)
        (by simp [hpc]) (by simp [hpc])⟩
      rw [h.locked, (hc.owns l).mpr (.inl hm)]
      rfl
  case holdingCpu acq l =>
    subst hs
    refine ⟨owner, h.answer ?_ (by rw [hpc]; rfl) (by simp [hpc]) (by simp [hpc])⟩
    rw [decide_eq_true_iff, h.cpu]
    simp [Core.Shown, hpc]
  case xchg l =>
    split_ifs at hs with hl
    · cases hs
      exact ⟨owner, h⟩
    · cases hs
      exact ⟨_, h.xchg hpc (Bool.eq_false_iff.mpr hl)⟩
  case got l =>
    subst hs
    exact ⟨owner, h.got hpc⟩
  case clear l =>
    subst hs
    exact ⟨owner, h.clear hpc⟩
  case unlock l =>
    subst hs
    exact ⟨_, h.unlock hpc⟩

omit [DecidableEq L] in
theorem Sys.out_eq_some {f : Core L → Option (Core L)} (hs : s.out c f = some s') :
    (s.core c).pc = .out ∧ ∃ y, f (s.core c) = some y ∧ s.set c y = s' := by
  unfold Sys.out at hs
  split at hs
  · exact ⟨‹_›, Option.map_eq_some_iff.mp hs⟩
  · cases hs

theorem step_inv {a : Act n L} (h : Inv owner s) (hs : step s a = some s') :
    ∃ owner', Inv owner' s' := by
  cases a
  all_goals simp only [step] at hs
  case advance c => exact h.advance hs
  case acquire c l =>
    obtain ⟨hpc, _, ⟨⟩, rfl⟩ := Sys.out_eq_some hs
    have hpush := (h.core c).pushcli (.xchg l) (by rw [hpc]; rfl) (by simp [hpc]) trivial
    exact ⟨owner, h.set (hpush.pushcli _ rfl (by simp) trivial) fun k => by
      simp [Core.Shown, Core.pushcli, hpc]⟩
  case release c l =>
    obtain ⟨hpc, _, ⟨⟩, rfl⟩ := Sys.out_eq_some hs
    have hpush := (h.core c).pushcli (.holding false l) (by rw [hpc]; rfl) (by simp [hpc])
      trivial
    exact ⟨owner, h.set hpush fun k => by simp [Core.Shown, Core.pushcli, hpc]⟩
  case interrupt c =>
    obtain ⟨-, y, hy, rfl⟩ := Sys.out_eq_some hs
    obtain ⟨hi, ⟨⟩⟩ := Option.ite_none_right_eq_some.mp hy
    rw [(h.core c).intr, Bool.and_eq_true, decide_eq_true_iff] at hi
    exact ⟨owner, h.flags (Bool.and_false _).symm fun hn => absurd hi.1 hn⟩
  case enable c =>
    obtain ⟨-, y, hy, rfl⟩ := Sys.out_eq_some hs
    obtain ⟨h0, ⟨⟩⟩ := Option.ite_none_right_eq_some.mp hy
    exact ⟨owner, h.flags (by simp [h0]) fun hn => absurd h0 hn⟩
  case swtch c intena =>
    obtain ⟨-, y, hy, rfl⟩ := Sys.out_eq_some hs
    obtain ⟨h1, ⟨⟩⟩ := Option.ite_none_right_eq_some.mp hy
    exact ⟨owner, h.flags (by simp [(h.core c).intr, h1]) fun _ => rfl⟩

/-- In every run: no two processors hold one lock; interrupts are enabled only where no lock is held
and outside of `acquire` and `release`, and there exactly if they would be without the locks; and the
only panics are those of a processor that acquires a lock it holds, or releases one it does not. -/
theorem spinlocks_exclude {as : List (Act n L)} (hs : run step boot as = some s) :
    (∀ c c' l, l ∈ (s.core c).held → l ∈ (s.core c').held → c = c') ∧
    (∀ c, (s.core c).intr = true → (s.core c).held = [] ∧
      ((s.core c).pc = .out ∨ ∃ l, (s.core c).pc = .panic (.release l))) ∧
    (∀ c, (s.core c).pc = .out → (s.core c).held = [] → (s.core c).intr = (s.core c).base) ∧
    ∀ c e, (s.core c).pc = .panic e →
      (∃ l ∈ (s.core c).held, e = .acquire l) ∨ ∃ l, l ∉ (s.core c).held ∧ e = .release l := by
  obtain ⟨owner, h⟩ := run_invariant' (I := fun s : Sys n L => ∃ owner, Inv owner s)
    (fun _ _ _ ⟨_, h⟩ hs => step_inv h hs) ⟨_, boot_inv⟩ hs
  refine ⟨fun c c' l hc hc' => ?_, fun c hi => ?_, fun c hpc hheld => ?_, fun c e hpc => ?_⟩
  · have ho := ((h.core c).owns l).mpr (.inl hc)
    exact Option.some.inj (ho.symm.trans (((h.core c').owns l).mpr (.inl hc')))
  · have hcount := (h.core c).count
    have hfits := (h.core c).fits
    rw [(h.core c).intr, Bool.and_eq_true, decide_eq_true_iff] at hi
    have hheld : (s.core c).held = [] := List.length_eq_zero_iff.mp (by omega)
    rw [hi.1, hheld] at hcount
    rw [hheld] at hfits
    refine ⟨hheld, ?_⟩
    cases hpc : (s.core c).pc with
    | out => exact .inl rfl
    | panic e =>
      rw [hpc] at hfits
      cases e <;> simp [Pc.Fits] at hfits ⊢
    | _ =>
      rw [hpc] at hcount hfits
      simp [Pc.pushes, Pc.Fits] at hcount hfits
  · have hcount := (h.core c).count
    rw [hpc, hheld] at hcount
    simp [(h.core c).intr, hcount, Pc.pushes]
  · have hfits := (h.core c).fits
    rw [hpc] at hfits
    cases e with
    | acquire l => exact .inl ⟨l, hfits, rfl⟩
    | release l => exact .inr ⟨l, hfits, rfl⟩
    | _ => exact hfits.elim

/-- A processor waits for a lock that another one holds. -/
def contend : List (Act 2 Unit) :=
  [.enable 0, .acquire 0 (), .advance 0, .advance 0, .advance 0, .acquire 1 (), .advance 1,
    .advance 1, .advance 1]

theorem spinlocks_exclude_two : ∃ s, run step boot contend = some s ∧ (s.core 0).held = [()] ∧
    (s.core 0).intr = false ∧ () ∉ (s.core 1).held := by
  obtain ⟨s, hs, hheld, hintr⟩ : ∃ s, run step boot contend = some s ∧ (s.core 0).held = [()] ∧
    (s.core 0).intr = false := ⟨_, rfl, rfl, rfl⟩
  refine ⟨s, hs, hheld, hintr, fun h => ?_⟩
  exact absurd ((spinlocks_exclude hs).1 0 1 () (by simp [hheld]) h) (by decide)

end DuckoUnix.Spin
