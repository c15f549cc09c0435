import DuckoUnix.Lib.Copy

/-!
# The two `memmove`s

`string.c` looks where the ranges are before it copies; `ulib.c` always copies up. So a user program
that moves bytes up by less than their number gets the first of them again and again.
-/

namespace DuckoUnix

open Lib

abbrev Memory := BitVec 32 → BitVec 8

/-- `memmove` of `ulib.c`, where `n` is an `int`: the pointer returned and the memory. -/
def Ulib.memmove (m : Memory) (vdst vsrc n : BitVec 32) : BitVec 32 × Memory :=
  (vdst, copyUp m vdst vsrc n.toInt.toNat)

/-- `memmove` of `string.c`, where `n` is a `uint`. -/
def Kernel.memmove (m : Memory) (dst src n : BitVec 32) : BitVec 32 × Memory :=
  if src < dst ∧ src + n > dst then (dst, copyDown m (dst + n) (src + n) n.toNat)
  else (dst, copyUp m dst src n.toNat)

/-- The memory with the `n` bytes that were at `src` at `dst`. -/
def moved (m : Memory) (dst src n : BitVec 32) : Memory := fun a =>
  if a - dst < n then m (src + (a - dst)) else m a

namespace Memmove

variable {dst src n : BitVec 32}

theorem copyUp_eq (m : Memory) (dst src n : BitVec 32) :
    copyUp m dst src n.toNat =
      fun a => if a - dst < n then m (src + (a - dst) % (dst - src)) else m a := by
  funext a
  rw [copyUp_apply (Nat.le_of_lt n.isLt)]
  rfl

/-- What is read before it is overwritten is not repeated. -/
theorem mod_eq_self {i : BitVec 32} (hdst : dst.toNat + n.toNat ≤ 2 ^ 32)
    (hsrc : src.toNat + n.toNat ≤ 2 ^ 32) (h : ¬(src < dst ∧ src + n > dst)) (hi : i < n) :
    i % (dst - src) = i := by
  by_cases he : dst - src = 0#32
  · rw [he, BitVec.umod_zero]
  · exact BitVec.umod_eq_of_lt (by bv_omega)

theorem kernel_moves (m : Memory) (hdst : dst.toNat + n.toNat ≤ 2 ^ 32)
    (hsrc : src.toNat + n.toNat ≤ 2 ^ 32) :
    Kernel.memmove m dst src n = (dst, moved m dst src n) := by
  unfold Kernel.memmove moved
  split_ifs with h
  · have hroom : (dst - src).toNat + n.toNat ≤ 2 ^ 32 := by bv_omega
    have hdown := copyDown_apply m hroom
    rw [BitVec.ofNat_toNat, BitVec.setWidth_eq] at hdown
    rw [funext hdown]
    rfl
  · rw [copyUp_eq]
    congr 1
    funext a
    split_ifs with hin
    · rw [mod_eq_self hdst hsrc h hin]
    · rfl

/-- For every memory, destination, source and length that does not wrap: the kernel's `memmove` leaves
the bytes of the source at the destination, and the rest of the memory alone. The one of the user
programs leaves the same memory, unless the destination starts inside of the source, and then exactly
if the source repeats the bytes before the destination. -/
theorem memmove_agree_iff (m : Memory) (dst src n : BitVec 32) (hn : 0 ≤ n.toInt)
    (hdst : dst.toNat + n.toNat ≤ 2 ^ 32) (hsrc : src.toNat + n.toNat ≤ 2 ^ 32) :
    Kernel.memmove m dst src n = (dst, moved m dst src n) ∧
      (Ulib.memmove m dst src n = Kernel.memmove m dst src n ↔
        (src < dst → dst < src + n → ∀ i < n, m (src + i % (dst - src)) = m (src + i))) := by
  have hkernel := kernel_moves m hdst hsrc
  have hint : n.toInt.toNat = n.toNat := by
    rw [BitVec.toInt_eq_toNat_cond] at hn ⊢
    split_ifs at hn ⊢ <;> omega
  refine ⟨hkernel, ?_⟩
  rw [hkernel, Ulib.memmove, hint, copyUp_eq, Prod.mk.injEq]
  unfold moved
  constructor
  · rintro ⟨-, h⟩ - - i hi
    have hat := congrFun h (dst + i)
    rw [show dst + i - dst = i by bv_omega, if_pos hi, if_pos hi] at hat
    exact hat
  · intro h
    refine ⟨rfl, funext fun a => ?_⟩
    split_ifs with hin
    · by_cases hover : src < dst ∧ src + n > dst
      · exact h hover.1 hover.2 _ hin
      · rw [mod_eq_self hdst hsrc hover hin]
    · rfl

/-- Two bytes moved up by two. -/
theorem memmove_agree_apart :
    Ulib.memmove (BitVec.setWidth 8) 2 0 2 = Kernel.memmove (BitVec.setWidth 8) 2 0 2 := by
  apply (memmove_agree_iff _ 2 0 2 (by decide) (by decide) (by decide)).2.mpr
  intro _ h
  exact absurd h (by decide)

/-- Two bytes moved up by one: the second one is lost. -/
theorem memmove_differ :
    Ulib.memmove (BitVec.setWidth 8) 1 0 2 ≠ Kernel.memmove (BitVec.setWidth 8) 1 0 2 := by
  intro h
  have hat := congrFun (congrArg Prod.snd h) 2
  revert hat
  decide

end Memmove

end DuckoUnix
