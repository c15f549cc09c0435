import Mathlib.Data.List.Basic
import Mathlib.Logic.Function.Basic
import Mathlib.Tactic.Ring

/-!
# Little-endian integers in a byte array

A byte array is a function from offsets to bytes. `getLE m off w` reads the unsigned integer of
`w` bytes at `off`, `putLE` stores one, `putArray` stores a list of them one behind the other.
What is read back is what was stored, reduced to the width, and a store does not show outside the
bytes it covers.
-/

namespace Lib

open Function

abbrev Bytes := ℕ → BitVec 8

/-- The unsigned integer in the `w` bytes at `off`, least significant byte first. -/
def getLE (m : Bytes) (off : ℕ) : ℕ → ℕ
  | 0 => 0
  | w + 1 => (m off).toNat + 256 * getLE m (off + 1) w

/-- Store the low `w` bytes of `v` at `off`. -/
def putLE (m : Bytes) (off : ℕ) : ℕ → ℕ → Bytes
  | 0, _ => m
  | w + 1, v => putLE (update m off (BitVec.ofNat 8 v)) (off + 1) w (v / 256)

theorem putLE_of_lt {m : Bytes} {off w v i : ℕ} (h : i < off) : putLE m off w v i = m i := by
  induction w generalizing m off v with
  | zero => rfl
  | succ w ih =>
    unfold putLE
    rw [ih (by omega), update_of_ne (by omega)]

theorem putLE_of_le {m : Bytes} {off w v i : ℕ} (h : off + w ≤ i) : putLE m off w v i = m i := by
  induction w generalizing m off v with
  | zero => rfl
  | succ w ih =>
    unfold putLE
    rw [ih (by omega), update_of_ne (by omega)]

theorem getLE_lt (m : Bytes) (off w : ℕ) : getLE m off w < 256 ^ w := by
  induction w generalizing off with
  | zero => exact Nat.zero_lt_one
  | succ w ih =>
    unfold getLE
    have hbyte : (m off).toNat < 256 := (m off).isLt
    have hrest := ih (off + 1)
    rw [pow_succ']
    omega

theorem getLE_congr {m m' : Bytes} {off w : ℕ} (h : ∀ i, off ≤ i → i < off + w → m i = m' i) :
    getLE m off w = getLE m' off w := by
  induction w generalizing off with
  | zero => rfl
  | succ w ih =>
    unfold getLE
    rw [h off (Nat.le_refl _) (by omega), ih fun i hi hi' => h i (by omega) (by omega)]

theorem getLE_putLE (m : Bytes) (off w v : ℕ) : getLE (putLE m off w v) off w = v % 256 ^ w := by
  induction w generalizing m off v with
  | zero => rw [pow_zero, Nat.mod_one]; rfl
  | succ w ih =>
    unfold getLE putLE
    have hbyte : (BitVec.ofNat 8 v).toNat = v % 256 := by simp
    rw [ih, putLE_of_lt (by omega), update_self, hbyte, pow_succ', Nat.mod_mul]

/-- A store does not show in an integer that lies apart from it. -/
theorem getLE_putLE_of_disjoint {m : Bytes} {off off' w w' v : ℕ}
    (h : off + w ≤ off' ∨ off' + w' ≤ off) :
    getLE (putLE m off w v) off' w' = getLE m off' w' := by
  refine getLE_congr fun i hi hi' => ?_
  rcases h with h | h
  · exact putLE_of_le (by omega)
  · exact putLE_of_lt (by omega)

/-- Store integers of `w` bytes one behind the other. -/
def putArray (m : Bytes) (off w : ℕ) : List ℕ → Bytes
  | [] => m
  | v :: vs => putArray (putLE m off w v) (off + w) w vs

theorem getLE_putArray_of_le {m : Bytes} {off w off' w' : ℕ} {vs : List ℕ} (h : off' + w' ≤ off) :
    getLE (putArray m off w vs) off' w' = getLE m off' w' := by
  induction vs generalizing m off with
  | nil => rfl
  | cons v vs ih =>
    unfold putArray
    rw [ih (by omega), getLE_putLE_of_disjoint (Or.inr h)]

theorem putArray_of_lt {m : Bytes} {off w i : ℕ} {vs : List ℕ} (h : i < off) :
    putArray m off w vs i = m i := by
  induction vs generalizing m off with
  | nil => rfl
  | cons v vs ih =>
    unfold putArray
    rw [ih (by omega), putLE_of_lt h]

theorem putArray_of_le {m : Bytes} {off w i : ℕ} {vs : List ℕ} (h : off + vs.length * w ≤ i) :
    putArray m off w vs i = m i := by
  induction vs generalizing m off with
  | nil => rfl
  | cons v vs ih =>
    rw [List.length_cons, Nat.add_mul, Nat.one_mul] at h
    unfold putArray
    rw [ih (by omega), putLE_of_le (by omega)]

theorem getLE_putArray {m : Bytes} {off w k : ℕ} {vs : List ℕ} (hk : k < vs.length) :
    getLE (putArray m off w vs) (off + k * w) w = vs[k] % 256 ^ w := by
  induction vs generalizing m off k with
  | nil => cases hk
  | cons v vs ih =>
    unfold putArray
    cases k with
    | zero =>
      rw [getLE_putArray_of_le (by omega), Nat.zero_mul, Nat.add_zero, getLE_putLE]
      rfl
    | succ k =>
      have hoff : off + (k + 1) * w = off + w + k * w := by rw [Nat.add_mul, Nat.one_mul]; omega
      rw [hoff, ih (Nat.lt_of_succ_lt_succ hk)]
      rfl

end Lib
