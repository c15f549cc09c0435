import Mathlib.Data.BitVec
import Mathlib.Logic.Function.Basic
import Mathlib.Order.Basic
import Mathlib.Tactic.Set

/-!
# Copying a range of memory in place

The two loops that move `n` cells of a memory with addresses of `w` bits, up from the first cell and
down from the last one, and what each leaves behind when the two ranges overlap.
-/

namespace Lib

open Function

variable {α : Type*} {w n : ℕ}

/-- Copies the `n` cells from `s` on to `d`, the first one first. -/
def copyUp (m : BitVec w → α) (d s : BitVec w) : ℕ → BitVec w → α
  | 0 => m
  | n + 1 => copyUp (update m d (m s)) (d + 1#w) (s + 1#w) n

/-- Copies the `n` cells that end at `s` to where they end at `d`, the last one first. -/
def copyDown (m : BitVec w → α) (d s : BitVec w) : ℕ → BitVec w → α
  | 0 => m
  | n + 1 => copyDown (update m (d - 1#w) (m (s - 1#w))) (d - 1#w) (s - 1#w) n

theorem add_one_mod (j δ : ℕ) : (j + 1) % δ = if j % δ + 1 = δ then 0 else j % δ + 1 := by
  rw [← Nat.mod_add_mod]
  split_ifs with h
  · rw [h, Nat.mod_self]
  · rcases Nat.eq_zero_or_pos δ with rfl | hδ
    · simp
    · have := Nat.mod_lt j hδ
      exact Nat.mod_eq_of_lt (by omega)

theorem toNat_eq_succ {k : BitVec w} (h : k ≠ 0#w) : k.toNat = (k - 1#w).toNat + 1 := by
  have hpos : k.toNat ≠ 0 := fun e => h (BitVec.eq_of_toNat_eq e)
  have hlt := k.isLt
  have hone : (1#w).toNat = 1 := Nat.mod_eq_of_lt (by omega)
  rw [BitVec.toNat_sub_of_le, hone]
  · omega
  · rw [BitVec.le_def, hone]
    omega

/-- The cells between `s` and `d` are repeated where the range they are copied to reaches into the
range that is still to be read. -/
theorem copyUp_apply (hn : n ≤ 2 ^ w) (m : BitVec w → α) (d s a : BitVec w) :
    copyUp m d s n a = if (a - d).toNat < n then m (s + (a - d) % (d - s)) else m a := by
  rw [BitVec.umod_def]
  induction n generalizing m d s with
  | zero => rfl
  | succ n ih =>
    have hsub : d + 1#w - (s + 1#w) = d - s := by grind
    have hnext : a - (d + 1#w) = a - d - 1#w := by grind
    rw [copyUp, ih (by omega), hsub, hnext]
    by_cases ha : a = d
    · -- the first cell, which no later store hits
      have hlast : (a - d - 1#w).toNat = 2 ^ w - 1 := by
        rw [ha, BitVec.sub_self, BitVec.zero_sub, BitVec.neg_one_eq_allOnes, BitVec.toNat_allOnes]
      rw [hlast, if_neg (by omega), ha, update_self, BitVec.sub_self, BitVec.toNat_zero,
        if_pos (Nat.succ_pos n), Nat.zero_mod, BitVec.add_zero]
    · have hj := toNat_eq_succ (k := a - d) (by grind)
      have hlt := (a - d).isLt
      rw [hj, add_one_mod]
      rw [hj] at hlt
      set j := (a - d - 1#w).toNat
      simp only [Nat.add_lt_add_iff_right, update_of_ne ha]
      congr 1
      have hstep (r : ℕ) : s + 1#w + BitVec.ofNat w r = s + BitVec.ofNat w (r + 1) := by
        rw [BitVec.ofNat_add, BitVec.add_assoc, BitVec.add_comm (1#w)]
      rw [hstep]
      split_ifs with h
      · -- the cell read is `d`, which holds the first one by now
        have hd : s + BitVec.ofNat w (j % (d - s).toNat + 1) = d := by
          rw [h, BitVec.ofNat_toNat, BitVec.setWidth_eq]
          grind
        rw [hd, update_self, BitVec.add_zero]
      · apply update_of_ne
        intro e
        have hle := Nat.mod_le j (d - s).toNat
        have hd : BitVec.ofNat w (j % (d - s).toNat + 1) = d - s := by grind
        have hnat := congrArg BitVec.toNat hd
        rw [BitVec.toNat_ofNat, Nat.mod_eq_of_lt (by omega)] at hnat
        exact h hnat

/-- Going down, a range moves up as a whole. -/
theorem copyDown_apply (m : BitVec w → α) {d s : BitVec w} (h : (d - s).toNat + n ≤ 2 ^ w)
    (a : BitVec w) :
    copyDown m (d + BitVec.ofNat w n) (s + BitVec.ofNat w n) n a =
      if (a - d).toNat < n then m (s + (a - d)) else m a := by
  induction n generalizing m with
  | zero => rfl
  | succ n ih =>
    have hpred (p : BitVec w) : p + BitVec.ofNat w (n + 1) - 1#w = p + BitVec.ofNat w n := by
      rw [BitVec.ofNat_add]
      grind
    rw [copyDown, hpred, hpred, ih _ (by omega)]
    by_cases hlt : (a - d).toNat < n
    · -- the last cell is above what is still to be read
      rw [if_pos hlt, if_pos (by omega)]
      apply update_of_ne
      intro e
      have hk : a - d = d - s + BitVec.ofNat w n := by grind
      rw [hk, BitVec.toNat_add, BitVec.toNat_ofNat, Nat.add_mod_mod, Nat.mod_eq_of_lt (by omega)] at hlt
      omega
    · rw [if_neg hlt]
      have hn : (BitVec.ofNat w n).toNat = n := Nat.mod_eq_of_lt (by omega)
      by_cases ha : a = d + BitVec.ofNat w n
      · have hk : a - d = BitVec.ofNat w n := by grind
        rw [hk, hn, if_pos (by omega), ha, update_self]
      · have hne : (a - d).toNat ≠ n := by
          intro e
          apply ha
          have hk : a - d = BitVec.ofNat w n := BitVec.eq_of_toNat_eq (e.trans hn.symm)
          grind
        rw [update_of_ne ha, if_neg (by omega)]

end Lib
