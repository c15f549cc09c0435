import Mathlib.Data.List.Basic
import Mathlib.Logic.Function.Basic

/-!
# Ring buffers

A ring of `N` cells, read from position `r` on. Positions are counters that only go up and are
taken modulo `N`; where they are kept in a machine word, only their class modulo `N` is known,
which is enough (`ring_mod`).
-/

namespace Lib

open Function

variable {α : Type*} {N r n : ℕ} {data : ℕ → α}

/-- The `n` entries from position `r` on. -/
def ring (N : ℕ) (data : ℕ → α) (r n : ℕ) : List α :=
  (List.range n).map fun i => data ((r + i) % N)

/-- Only the position modulo `N` matters. -/
theorem ring_mod {r' : ℕ} (h : r % N = r' % N) : ring N data r n = ring N data r' n := by
  unfold ring
  refine List.map_congr_left fun i _ => ?_
  rw [Nat.add_mod, h, ← Nat.add_mod]

theorem ring_succ : ring N data r (n + 1) = data (r % N) :: ring N data (r + 1) n := by
  unfold ring
  rw [List.range_succ_eq_map, List.map_cons, List.map_map, Nat.add_zero]
  congr 1
  refine List.map_congr_left fun i _ => ?_
  rw [Function.comp_apply, Nat.succ_eq_add_one, Nat.add_assoc, Nat.add_comm 1]

/-- Two positions less than `N` apart are different cells. -/
theorem ring_cell_ne {i : ℕ} (hi : i < n) (hn : n < N) : (r + i) % N ≠ (r + n) % N := by
  intro h
  have hmod : (n - i) % N = 0 := by
    have := Nat.sub_mod_eq_zero_of_mod_eq h.symm
    rwa [Nat.add_sub_add_left] at this
  rw [Nat.mod_eq_of_lt (by omega)] at hmod
  omega

theorem ring_succ_last : ring N data r (n + 1) = ring N data r n ++ [data ((r + n) % N)] := by
  unfold ring
  rw [List.range_succ, List.map_append, List.map_singleton]

/-- Storing behind `n` entries or more does not change them. -/
theorem ring_update {m : ℕ} (hn : n ≤ m) (hm : m < N) (a : α) :
    ring N (update data ((r + m) % N) a) r n = ring N data r n := by
  unfold ring
  refine List.map_congr_left fun i hi => ?_
  have hi := List.mem_range.mp hi
  exact update_of_ne (ring_cell_ne (Nat.lt_of_lt_of_le hi hn) hm) _ _

/-- Storing behind the last of `n` entries, when there is room. -/
theorem ring_put (hn : n < N) (a : α) :
    ring N (update data ((r + n) % N) a) r (n + 1) = ring N data r n ++ [a] := by
  rw [ring_succ_last, ring_update (Nat.le_refl n) hn, update_self]

end Lib
