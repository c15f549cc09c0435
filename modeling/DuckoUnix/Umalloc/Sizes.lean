import DuckoUnix.Umalloc.Runs

/-!
# Requests of any size

`malloc` over `sbrk` as the kernel has it, for every 32-bit number of bytes. The unit computation wraps
around for the largest requests, and `sbrk` gets its argument as an `int`: from 2³¹ bytes on it is
negative, and `growproc` then shrinks the process or, if there is less to give back, reports success
and leaves it as it is.
-/

namespace DuckoUnix.Umalloc

open Lib

variable {base k fuel n a : ℕ} {h h' : Heap} {sb : List (Option ℕ)}

def KERNBASE : ℕ := 2 ^ 31

/-- `sbrk(n)` of a process of size `sz`: the answer, with none for -1, and the size behind it. `ok`
says that `allocuvm` finds the memory. -/
def sbrk (sz n : ℕ) (ok : Bool) : Option ℕ × ℕ :=
  if n = 0 then (some sz, sz)
  else if n < 2 ^ 31 then
    if ok ∧ sz + n < KERNBASE then (some sz, sz + n) else (none, sz)
  else
    let newsz := min sz ((sz + n) % UINT)
    if newsz = 0 then (none, sz) else (some sz, newsz)

/-- A process that allocates and frees, with its size. -/
structure Process extends State where
  sz : ℕ

/-- `malloc(nbytes)` and what it returns; the size changes if `sbrk` has been called. -/
def Process.malloc (base : ℕ) (s : Process) (nbytes : BitVec 32) (ok : Bool) (fuel : ℕ) :
    Option (Option ℕ × Process) :=
  let r := sbrk s.sz (HEADER * coreUnits (nunits nbytes.toNat) % UINT) ok
  (Umalloc.malloc base fuel s.toHeap nbytes.toNat [r.1]).map fun (p, h) =>
    (p, { toHeap := h
          live := p.elim s.live fun p => insert (p - HEADER) s.live
          sz := if h.regions = s.regions then s.sz else r.2 })

inductive Request
  | malloc (nbytes : BitVec 32) (ok : Bool)
  | free (ap : ℕ)

def Process.step (base : ℕ) (s : Process) : ℕ × Request → Option Process
  | (fuel, .malloc nbytes ok) => (s.malloc base nbytes ok fuel).map Prod.snd
  | (fuel, .free ap) => (Umalloc.step base s.toState (fuel, .free ap)).map ({ · with sz := s.sz })

/-- The requests that fit in a positive `int`, and `free` of a live pointer. -/
def Process.Allowed (s : Process) : ℕ × Request → Prop
  | (_, .malloc nbytes _) => Small nbytes.toNat
  | (_, .free ap) => ∃ b ∈ s.live, ap = b + HEADER

instance (s : Process) : ∀ c, Decidable (s.Allowed c)
  | (_, .malloc _ _) => inferInstanceAs (Decidable (Small _))
  | (_, .free ap) => inferInstanceAs (Decidable (∃ b ∈ s.live, ap = b + HEADER))

theorem free_regions {ap : ℕ} (hf : free fuel h ap = some h') : h'.regions = h.regions := by
  simp only [free, bind, pure, Option.bind_eq_some_iff, Option.some.injEq] at hf
  obtain ⟨x, -, q, -, rfl⟩ := hf
  unfold joinLower joinUpper
  split_ifs <;> rfl

theorem search_regions {q p : ℕ} {r : Option ℕ} (hsb : sb.length ≤ 1)
    (hs : search n k sb h q p = some (r, h')) :
    h'.regions = h.regions ∨
      ∃ a, sb.headD none = some a ∧ h'.regions = (a, HEADER * coreUnits n) :: h.regions := by
  induction k generalizing sb h q p with
  | zero => cases hs
  | succ k ih =>
    rw [search] at hs
    split_ifs at hs
    · left
      unfold carve at hs
      split_ifs at hs <;> cases hs <;> rfl
    · cases hr : sb.headD none with
      | none =>
        rw [hr] at hs
        cases hs
        exact .inl rfl
      | some a =>
        simp only [hr, morecore, bind, pure, Option.bind] at hs
        cases hf : free k (grown h a (coreUnits n)) (a + HEADER) with
        | none =>
          rw [hf] at hs
          cases hs
        | some h₁ =>
          rw [hf] at hs
          have hreg : h₁.regions = (a, HEADER * coreUnits n) :: h.regions := free_regions hf
          refine .inr ⟨a, rfl, ?_⟩
          rw [← hreg]
          have htail : sb.tail = [] := List.eq_nil_of_length_eq_zero (by simp; omega)
          cases hx : h₁.freep with
          | none =>
            simp only [hx] at hs
            cases hs
            rfl
          | some x =>
            simp only [hx, htail] at hs
            rcases ih (by simp) hs with hsame | ⟨a', ha', -⟩
            · exact hsame
            · cases ha'
    · exact ih hsb hs

theorem start_regions (base : ℕ) (h : Heap) : (start base h).regions = h.regions := by
  unfold start
  split <;> rfl

theorem malloc_regions {r p : Option ℕ} (hm : malloc base fuel h n [r] = some (p, h')) :
    h'.regions = h.regions ∨
      ∃ a, r = some a ∧ h'.regions = (a, HEADER * coreUnits (nunits n)) :: h.regions := by
  simp only [malloc, bind, Option.bind_eq_some_iff] at hm
  obtain ⟨x, -, hs⟩ := hm
  have hsb : [r].length ≤ 1 := Nat.le_refl 1
  rw [← start_regions base h]
  exact search_regions hsb hs

/-! ## Runs -/

/-- What `sbrk` has returned lies between the size at the start and the size now. -/
structure Process.Good (base sz₀ : ℕ) (s : Process) : Prop where
  heap : s.toState.Good base
  base_le : base + HEADER ≤ sz₀
  le : sz₀ ≤ s.sz
  regions : ∀ g ∈ s.regions, sz₀ ≤ g.1 ∧ g.1 + g.2 ≤ s.sz

variable {sz₀ : ℕ} {s s' : Process} {nbytes : BitVec 32} {ok : Bool}

/-- `sbrk` for a small request. -/
theorem sbrk_small (hn : Small n) (sz : ℕ) (ok : Bool) :
    sbrk sz (HEADER * coreUnits (nunits n) % UINT) ok = (none, sz) ∨
      sbrk sz (HEADER * coreUnits (nunits n) % UINT) ok =
        (some sz, sz + HEADER * coreUnits (nunits n)) := by
  have hlt := hn.2
  have hpos : 0 < HEADER * coreUnits (nunits n) := by
    unfold coreUnits HEADER
    split_ifs <;> omega
  rw [Nat.mod_eq_of_lt (by unfold UINT; omega)]
  unfold sbrk
  rw [if_neg (by omega), if_pos hlt]
  split_ifs
  · exact .inr rfl
  · exact .inl rfl

theorem Process.Good.fresh (hg : s.Good base sz₀) (hn : Small n) (ok : Bool) :
    Fresh base s.toHeap
      ([(sbrk s.sz (HEADER * coreUnits (nunits n) % UINT) ok).1].headD none) := by
  intro a ha
  have hle := hg.le
  have hbase := hg.base_le
  rcases sbrk_small hn s.sz ok with hr | hr
  · rw [hr] at ha
    cases ha
  · rw [hr] at ha
    obtain rfl : s.sz = a := Option.some.inj ha
    exact ⟨by omega, fun g hmem => (hg.regions g hmem).2⟩

theorem Process.Good.malloc {p : Option ℕ} (hg : s.Good base sz₀) (hn : Small nbytes.toNat)
    (hm : s.malloc base nbytes ok fuel = some (p, s')) : s'.Good base sz₀ := by
  have hfresh := hg.fresh hn ok
  simp only [Process.malloc, Option.map_eq_some_iff, Prod.exists, Prod.mk.injEq] at hm
  obtain ⟨p, h', hm, rfl, rfl⟩ := hm
  have hgood : State.Good base ⟨h', p.elim s.live fun p => insert (p - HEADER) s.live⟩ := by
    rcases malloc_outcome hg.heap hfresh hm with ⟨rfl, L, hinv, -⟩ | ⟨c, rfl, -, -, L, hinv, -⟩
    · exact .inr ⟨L, hinv⟩
    · exact .inr ⟨L, by simpa using hinv⟩
  rcases malloc_regions hm with hsame | ⟨a, ha, hcons⟩
  · refine ⟨hgood, hg.base_le, ?_, ?_⟩
    · simp only [hsame, if_true]
      exact hg.le
    · simp only [hsame, if_true]
      exact hg.regions
  · rcases sbrk_small hn s.sz ok with hr | hr
    · rw [hr] at ha
      cases ha
    · rw [hr] at ha
      obtain rfl : s.sz = a := Option.some.inj ha
      have hne : h'.regions ≠ s.regions := fun e => by
        rw [hcons] at e
        exact absurd (congrArg List.length e) (by simp)
      have hle := hg.le
      refine ⟨hgood, hg.base_le, ?_, fun g hmem => ?_⟩
      · simp only [hne, if_false, hr]
        omega
      · simp only [hne, if_false, hr]
        rw [hcons] at hmem
        rcases List.mem_cons.mp hmem with rfl | hmem
        · exact ⟨hle, Nat.le_refl _⟩
        · have := hg.regions g hmem
          omega

theorem Process.Good.step {c : ℕ × Request} (hg : s.Good base sz₀) (hc : s.Allowed c)
    (hs : s.step base c = some s') : s'.Good base sz₀ := by
  obtain ⟨fuel, (⟨nbytes, ok⟩ | ap)⟩ := c
  · obtain ⟨⟨p, _⟩, hm, rfl⟩ := Option.map_eq_some_iff.mp hs
    exact hg.malloc hc hm
  · obtain ⟨t, ht, rfl⟩ := Option.map_eq_some_iff.mp hs
    have hreg : t.regions = s.regions := by
      obtain ⟨h', hf, rfl⟩ := Option.map_eq_some_iff.mp ht
      exact free_regions hf
    refine ⟨(step_good (c := .free ap) hg.heap hc ht).1, hg.base_le, hg.le, ?_⟩
    rw [hreg]
    exact hg.regions

/-- A process of two pages that has not allocated anything. -/
def fresh : Process := ⟨⟨⟨fun _ => 0, fun _ => 0, none, []⟩, ∅⟩, 8192⟩

end DuckoUnix.Umalloc
