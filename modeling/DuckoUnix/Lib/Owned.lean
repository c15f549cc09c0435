import Mathlib.Algebra.BigOperators.Group.Finset.Piecewise
import Mathlib.Algebra.BigOperators.Group.Finset.Sigma
import Mathlib.Algebra.Order.Group.Multiset
import Mathlib.Data.Multiset.AddSub
import Mathlib.Tactic.Abel

/-!
# Cells that are free or owned

Cells are handed out from a free list and held by owners. `collect` gathers the cells that the
entries of a table name. `Moves` is what an operation does that works on the free cells and on the
owned cells `A` and leaves `A'` owned: no cell is lost or doubled, and every other cell keeps its
contents. Operations compose, and a larger owner can be put around one.
-/

namespace Lib

variable {α β : Type*}

/-! ## The cells a table names -/

def single : Option α → Multiset α
  | some a => {a}
  | none => 0

@[simp] theorem single_some (a : α) : single (some a) = {a} := rfl

@[simp] theorem single_none : single (none : Option α) = 0 := rfl

theorem mem_single {o : Option α} {a : α} : a ∈ single o ↔ o = some a := by
  cases o with
  | none => simp
  | some b => simp [eq_comm]

/-- The cells named by the first `n` entries of `f`. -/
@[irreducible] def collect (n : ℕ) (f : ℕ → Option α) : Multiset α := ∑ i ∈ Finset.range n, single (f i)

variable {n i j : ℕ} {f g : ℕ → Option α} {a : α}

theorem mem_collect : a ∈ collect n f ↔ ∃ i < n, f i = some a := by
  unfold collect
  rw [Multiset.mem_sum]
  simp only [Finset.mem_range, mem_single]

theorem collect_congr (h : ∀ i < n, f i = g i) : collect n f = collect n g := by
  unfold collect
  exact Finset.sum_congr rfl fun i hi => by rw [h i (Finset.mem_range.mp hi)]

theorem collect_none (h : ∀ i < n, f i = none) : collect n f = 0 := by
  unfold collect
  exact Finset.sum_eq_zero fun i hi => by rw [h i (Finset.mem_range.mp hi)]; rfl

theorem collect_succ : collect (n + 1) f = single (f 0) + collect n fun i => f (i + 1) := by
  unfold collect
  rw [Finset.sum_range_succ', add_comm]

/-- Two tables that agree off `i` differ by their cells at `i`. -/
theorem collect_add_single (hi : i < n) (h : ∀ j < n, j ≠ i → g j = f j) :
    collect n g + single (f i) = collect n f + single (g i) := by
  have hmem := Finset.mem_range.mpr hi
  have herase : ∑ j ∈ (Finset.range n).erase i, single (g j) =
      ∑ j ∈ (Finset.range n).erase i, single (f j) :=
    Finset.sum_congr rfl fun j hj => by
      rw [h j (Finset.mem_range.mp (Finset.mem_of_mem_erase hj)) (Finset.ne_of_mem_erase hj)]
  unfold collect
  rw [← Finset.add_sum_erase _ _ hmem, ← Finset.add_sum_erase _ (fun j => single (f j)) hmem,
    herase]
  abel

/-- The cells of the entries in `p` and those of the others. -/
theorem collect_split (p : ℕ → Prop) [DecidablePred p] :
    (collect n fun i => if p i then f i else none) + (collect n fun i => if p i then none else f i) =
      collect n f := by
  unfold collect
  rw [← Finset.sum_add_distrib]
  refine Finset.sum_congr rfl fun i _ => ?_
  dsimp only
  by_cases hi : p i
  · rw [if_pos hi, if_pos hi, single_none, add_zero]
  · rw [if_neg hi, if_neg hi, single_none, zero_add]

/-- A cell that occurs once is named by one entry. -/
theorem collect_inj (hn : (collect n f).Nodup) (hi : i < n) (hj : j < n) (h : f i = some a)
    (h' : f j = some a) : i = j := by
  by_contra hne
  have hmove := collect_add_single (g := fun k => if k = i then none else f k) hi
    fun k _ hk => if_neg hk
  rw [if_pos rfl, single_none, add_zero, h, single_some] at hmove
  rw [← hmove, Multiset.nodup_add] at hn
  refine Multiset.disjoint_left.mp hn.2.2 (mem_collect.mpr ⟨j, hj, ?_⟩)
    (Multiset.mem_singleton_self a)
  rw [if_neg fun e => hne e.symm, h']

theorem card_collect :
    (collect n f).card = ((Finset.range n).filter fun i => (f i).isSome).card := by
  unfold collect
  rw [Multiset.card_sum, Finset.card_filter]
  refine Finset.sum_congr rfl fun i _ => ?_
  cases f i with
  | none => rfl
  | some a => rfl

/-- A table with new entries in `S` only names at most so many cells more. -/
theorem card_collect_le {S : Finset ℕ} (h : ∀ i, (g i).isSome → (f i).isSome ∨ i ∈ S) :
    (collect n g).card ≤ (collect n f).card + S.card := by
  rw [card_collect, card_collect]
  refine (Finset.card_le_card fun i hi => ?_).trans (Finset.card_union_le _ S)
  obtain ⟨hi, hg⟩ := Finset.mem_filter.mp hi
  exact Finset.mem_union.mpr ((h i hg).imp (fun hf => Finset.mem_filter.mpr ⟨hi, hf⟩) id)

/-! ## Operations -/

/-- From free cells `F`, owned cells `A` and contents `m` to `F'`, `A'` and `m'`: the cells are the
same, and no other cell is touched. -/
structure Moves (F A : Multiset α) (m : α → β) (F' A' : Multiset α) (m' : α → β) : Prop where
  total : F' + A' = F + A
  frame : ∀ x, x ∉ F + A → m' x = m x

namespace Moves

variable {F A F' A' F'' A'' X : Multiset α} {m m' m'' : α → β}

theorem refl : Moves F A m F A m := ⟨rfl, fun _ _ => rfl⟩

theorem trans (h : Moves F A m F' A' m') (h' : Moves F' A' m' F'' A'' m'') :
    Moves F A m F'' A'' m'' where
  total := h'.total.trans h.total
  frame x hx := (h'.frame x (h.total ▸ hx)).trans (h.frame x hx)

/-- The operation seen by a larger owner. -/
theorem add (h : Moves F A m F' A' m') : Moves F (A + X) m F' (A' + X) m' where
  total := by rw [← add_assoc, ← add_assoc, h.total]
  frame x hx := h.frame x fun hm => hx (by rw [← add_assoc]; exact Multiset.mem_add.mpr (.inl hm))

/-- What others own keeps its contents. -/
theorem same (h : Moves F A m F' A' m') (hn : (F + A + X).Nodup) {x : α} (hx : x ∈ X) :
    m' x = m x :=
  h.frame x fun hm => Multiset.disjoint_left.mp (Multiset.nodup_add.mp hn).2.2 hm hx

end Moves

end Lib
