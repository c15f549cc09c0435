import Mathlib.Data.Finset.Basic
import DuckoUnix.Lib.Cycle
import DuckoUnix.Lib.Run
import Mathlib.Algebra.Group.Nat.Defs

/-!
# malloc and free

`umalloc.c`. Addresses are numbers of bytes, as everything a process can point to lies below `2^32`;
a header takes 8 bytes and `p + n` is `n` headers further. The static header `base` lies below the
memory that `sbrk` gives out. A search loop takes the number of its rounds as fuel and gives none
when it runs out.

What `sbrk` answers is part of a call of `malloc`: a list of results, none for -1, of which each
call of `sbrk` takes one. `regions` and `live` record what `sbrk` and `malloc` gave out; no code
reads them.
-/

namespace DuckoUnix.Umalloc

open Lib Function

def HEADER : ℕ := 8

def UINT : ℕ := 2 ^ 32

/-- The headers in memory and `freep`, which is null until the first `malloc`. -/
structure Heap where
  ptr : ℕ → ℕ
  size : ℕ → ℕ
  freep : Option ℕ
  /-- start and length in bytes of what `sbrk` returned -/
  regions : List (ℕ × ℕ)

/-- Where the block at `p` ends: `p + p->s.size`. -/
def Heap.fin (h : Heap) (p : ℕ) : ℕ := p + HEADER * h.size p

/-- The loop of `free`: the node of the list after which `bp` belongs. -/
def place (ptr : ℕ → ℕ) (bp : ℕ) : ℕ → ℕ → Option ℕ
  | 0, _ => none
  | k + 1, p =>
    if p < bp ∧ bp < ptr p then some p
    else if ptr p ≤ p ∧ (p < bp ∨ bp < ptr p) then some p
    else place ptr bp k (ptr p)

/-- The first `if` of `free`: join `bp` to the upper neighbour. -/
def joinUpper (h : Heap) (bp p : ℕ) : Heap :=
  if h.fin bp = h.ptr p then
    { h with
      size := update h.size bp (h.size bp + h.size (h.ptr p))
      ptr := update h.ptr bp (h.ptr (h.ptr p)) }
  else { h with ptr := update h.ptr bp (h.ptr p) }

/-- The second `if` of `free`: join `bp` to the lower neighbour. -/
def joinLower (h : Heap) (bp p : ℕ) : Heap :=
  if h.fin p = bp then
    { h with
      size := update h.size p (h.size p + h.size bp)
      ptr := update h.ptr p (h.ptr bp)
      freep := some p }
  else { h with ptr := update h.ptr p bp, freep := some p }

def free (fuel : ℕ) (h : Heap) (ap : ℕ) : Option Heap := do
  let bp := ap - HEADER
  let p ← place h.ptr bp fuel (← h.freep)
  return joinLower (joinUpper h bp p) bp p

/-- The units `morecore(nu)` asks for. -/
def coreUnits (nu : ℕ) : ℕ := if nu < 4096 then 4096 else nu

/-- `hp->s.size = nu` in the region of `nu` units at `hp` that `sbrk` returned. -/
def grown (h : Heap) (hp nu : ℕ) : Heap :=
  { h with
    size := update h.size hp nu
    regions := (hp, HEADER * nu) :: h.regions }

/-- `morecore(nu)` when `sbrk` answers `r`; the first component is what it returns. -/
def morecore (fuel : ℕ) (h : Heap) (nu : ℕ) (r : Option ℕ) : Option (Option ℕ × Heap) :=
  match r with
  | none => some (none, h)
  | some hp => do
    let h' ← free fuel (grown h hp (coreUnits nu)) (hp + HEADER)
    return (h'.freep, h')

/-- `malloc` has found the block `p` after `prevp`: it takes all of it, or its upper end. -/
def carve (h : Heap) (nunits prevp p : ℕ) : Option ℕ × Heap :=
  if h.size p = nunits then
    (some (p + HEADER),
      { h with ptr := update h.ptr prevp (h.ptr p), freep := some prevp })
  else
    let rest := h.size p - nunits
    let q := p + HEADER * rest
    (some (q + HEADER),
      { h with
        size := update (update h.size p rest) q nunits
        freep := some prevp })

def search (nunits : ℕ) : ℕ → List (Option ℕ) → Heap → ℕ → ℕ → Option (Option ℕ × Heap)
  | 0, _, _, _, _ => none
  | k + 1, sb, h, prevp, p =>
    if nunits ≤ h.size p then some (carve h nunits prevp p)
    else if some p = h.freep then
      match morecore k h nunits (sb.headD none) with
      | none => none
      | some (none, h) => some (none, h)
      | some (some p, h) => search nunits k sb.tail h p (h.ptr p)
    else search nunits k sb h p (h.ptr p)

/-- `(nbytes + sizeof(Header) - 1)/sizeof(Header) + 1`. -/
def nunits (nbytes : ℕ) : ℕ := (nbytes + HEADER - 1) % UINT / HEADER + 1

/-- The first lines of `malloc`: an empty list on the first call. -/
def start (base : ℕ) (h : Heap) : Heap :=
  match h.freep with
  | some _ => h
  | none =>
    { h with
      ptr := update h.ptr base base
      size := update h.size base 0
      freep := some base }

/-- `malloc(nbytes)` with the answers `sb` of `sbrk`. -/
def malloc (base fuel : ℕ) (h : Heap) (nbytes : ℕ) (sb : List (Option ℕ)) :
    Option (Option ℕ × Heap) := do
  let h := start base h
  let prevp ← h.freep
  search (nunits nbytes) fuel sb h prevp (h.ptr prevp)

/-! ## A process that allocates and frees -/

/-- The heap, and the headers of the blocks that `malloc` gave out and `free` did not get back. -/
structure State extends Heap where
  live : Finset ℕ

inductive Call
  | malloc (nbytes : ℕ) (sb : List (Option ℕ))
  | free (ap : ℕ)
  deriving DecidableEq

/-- The unit and byte computations of `malloc(n)` fit in a positive `int`. -/
def Small (n : ℕ) : Prop :=
  n + HEADER - 1 < 2 ^ 31 ∧ HEADER * coreUnits (nunits n) < 2 ^ 31

/-- What `sbrk` returns lies above `base` and everything it returned before. -/
def Fresh (base : ℕ) (h : Heap) (r : Option ℕ) : Prop :=
  ∀ a ∈ r, base + HEADER ≤ a ∧ ∀ g ∈ h.regions, g.1 + g.2 ≤ a

/-- The calls a process makes: `malloc` of a small number when `sbrk` behaves, `free` of a live
pointer. -/
def Allowed (base : ℕ) (s : State) : Call → Prop
  | .malloc n sb => Small n ∧ Fresh base s.toHeap (sb.headD none)
  | .free ap => ∃ b ∈ s.live, ap = b + HEADER

instance (n : ℕ) : Decidable (Small n) := inferInstanceAs (Decidable (_ ∧ _))

instance (base : ℕ) (h : Heap) (r : Option ℕ) : Decidable (Fresh base h r) :=
  inferInstanceAs (Decidable (∀ a ∈ r, _))

instance (base : ℕ) (s : State) : ∀ c : Call, Decidable (Allowed base s c)
  | .malloc _ _ => inferInstanceAs (Decidable (_ ∧ _))
  | .free ap => inferInstanceAs (Decidable (∃ b ∈ s.live, ap = b + HEADER))

/-- One call, with the fuel of its loops; `live` follows. -/
def step (base : ℕ) (s : State) : ℕ × Call → Option State
  | (fuel, .malloc n sb) =>
    (malloc base fuel s.toHeap n sb).map fun (r, h) =>
      { toHeap := h, live := r.elim s.live fun p => insert (p - HEADER) s.live }
  | (fuel, .free ap) =>
    (free fuel s.toHeap ap).map fun h => { toHeap := h, live := s.live.erase (ap - HEADER) }

def State.Init (s : State) : Prop := s.freep = none ∧ s.regions = [] ∧ s.live = ∅

end DuckoUnix.Umalloc
