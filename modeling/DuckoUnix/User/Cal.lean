import Mathlib.Tactic

/-!
# The calendar

`dayofweek`, `is_leap_year` and the month lengths of `cal.c`, in the arithmetic of `int`. The weekday
of the first of a month is that of the proleptic Gregorian calendar, which is counted on month after
month from January of year 1.
-/

namespace DuckoUnix.Cal

/-- `static int t[]` of `dayofweek` -/
def t : List (BitVec 32) := [0, 3, 2, 5, 0, 3, 5, 1, 4, 6, 2, 4]

def dayofweek (d m y : BitVec 32) : BitVec 32 :=
  let y := if m.slt 3 then y - 1 else y
  (y + y.sdiv 4 - y.sdiv 100 + y.sdiv 400 + t.getD (m - 1).toNat 0 + d).srem 7

def is_leap_year (year : BitVec 32) : Bool :=
  if year.srem 400 = 0 then true
  else if year.srem 100 = 0 then false
  else year.srem 4 = 0

/-- `days_in_month[month-1]` in `main` -/
def days_in_month (month year : BitVec 32) : ℕ :=
  if month = 2 ∧ is_leap_year year then 29
  else [31, 28, 31, 30, 31, 30, 31, 31, 30, 31, 30, 31].getD (month - 1).toNat 0

/-! ## The calendar -/

/-- The weekday of the first of the month that comes `n` months after January of year 1, a Monday. -/
def firstDay : ℕ → ℕ
  | 0 => 1
  | n + 1 => (firstDay n + days_in_month (BitVec.ofNat 32 (n % 12 + 1))
      (BitVec.ofNat 32 (n / 12 + 1))) % 7

/-- The days that the years up to `y` move the weekday on. -/
def years (y : ℕ) : ℕ := y + y / 4 - y / 100 + y / 400

/-- The sum in `dayofweek` for the first of a month, without overflow. -/
def daySum (m y : ℕ) : ℕ := years (if m < 3 then y - 1 else y) + (t.getD (m - 1) 0).toNat + 1

/-! ## Arithmetic -/

section Signed

variable {x c : BitVec 32} (hx : x.toNat < 2 ^ 31) (hc : c.toNat < 2 ^ 31)
include hx hc

theorem toNat_sdiv : (x.sdiv c).toNat = x.toNat / c.toNat := by
  have hx' : x.msb = false := BitVec.msb_eq_false_iff_two_mul_lt.mpr (by omega)
  have hc' : c.msb = false := BitVec.msb_eq_false_iff_two_mul_lt.mpr (by omega)
  rw [BitVec.sdiv_eq, hx', hc']
  exact BitVec.toNat_udiv

theorem toNat_srem : (x.srem c).toNat = x.toNat % c.toNat := by
  have hx' : x.msb = false := BitVec.msb_eq_false_iff_two_mul_lt.mpr (by omega)
  have hc' : c.msb = false := BitVec.msb_eq_false_iff_two_mul_lt.mpr (by omega)
  rw [BitVec.srem_eq, hx', hc']
  exact BitVec.toNat_umod

end Signed

theorem srem_eq_zero_iff {y c : ℕ} (hy : y < 2 ^ 31) (hc : c < 2 ^ 31) :
    (BitVec.ofNat 32 y).srem (BitVec.ofNat 32 c) = 0 ↔ y % c = 0 := by
  have hy' : (BitVec.ofNat 32 y).toNat = y := Nat.mod_eq_of_lt (by omega)
  have hc' : (BitVec.ofNat 32 c).toNat = c := Nat.mod_eq_of_lt (by omega)
  rw [← BitVec.toNat_inj, toNat_srem (by omega) (by omega), hy', hc']
  rfl

theorem is_leap_year_iff {y : ℕ} (hy : y < 2 ^ 31) :
    is_leap_year (BitVec.ofNat 32 y) = true ↔ y % 400 = 0 ∨ y % 100 ≠ 0 ∧ y % 4 = 0 := by
  have h400 := @srem_eq_zero_iff y 400 hy (by norm_num)
  have h100 := @srem_eq_zero_iff y 100 hy (by norm_num)
  have h4 := @srem_eq_zero_iff y 4 hy (by norm_num)
  unfold is_leap_year
  split_ifs with h₁ h₂
  · simp [h400.mp h₁]
  · have := h100.mp h₂
    have := mt h400.mpr h₁
    simp
    omega
  · have := mt h400.mpr h₁
    have := mt h100.mpr h₂
    rw [decide_eq_true_iff]
    refine h4.trans ?_
    omega

/-! ## The sum -/

theorem le_years (y : ℕ) : y ≤ years y := by
  unfold years
  omega

theorem le_daySum {m y : ℕ} (hy : 1 ≤ y) : y ≤ daySum m y := by
  have := le_years (if m < 3 then y - 1 else y)
  unfold daySum
  split_ifs at this ⊢ <;> omega

theorem years_succ (y : ℕ) :
    years (y + 1) = years y +
      if (y + 1) % 400 = 0 ∨ (y + 1) % 100 ≠ 0 ∧ (y + 1) % 4 = 0 then 2 else 1 := by
  have hle : y / 100 ≤ y / 4 := Nat.div_le_div_left (by norm_num) (by norm_num)
  unfold years
  simp only [Nat.succ_div, Nat.dvd_iff_mod_eq_zero]
  split_ifs <;> omega

/-- The sum for the next month. -/
theorem daySum_succ (n : ℕ) (hn : n / 12 + 1 < 2 ^ 31) :
    daySum ((n + 1) % 12 + 1) ((n + 1) / 12 + 1) % 7 =
      (daySum (n % 12 + 1) (n / 12 + 1) + days_in_month (BitVec.ofNat 32 (n % 12 + 1))
        (BitVec.ofNat 32 (n / 12 + 1))) % 7 := by
  have hleap := is_leap_year_iff hn
  have hyears := years_succ (n / 12)
  have hlt : n % 12 < 12 := Nat.mod_lt _ (by norm_num)
  have hnext : (n + 1) / 12 = if n % 12 = 11 then n / 12 + 1 else n / 12 := by split_ifs <;> omega
  have hmonth : (n + 1) % 12 = if n % 12 = 11 then 0 else n % 12 + 1 := by split_ifs <;> omega
  rw [hnext, hmonth]
  generalize n / 12 = y at *
  generalize n % 12 = r at *
  -- only from February to March does the year that is counted with change
  interval_cases r <;> simp [daySum, t, days_in_month, hleap, hyears]
  all_goals try omega
  split_ifs <;> omega

theorem firstDay_eq (n : ℕ) (hn : n / 12 + 1 < 2 ^ 31) :
    firstDay n = daySum (n % 12 + 1) (n / 12 + 1) % 7 := by
  induction n with
  | zero => decide
  | succ n ih =>
    have hn' : n / 12 + 1 < 2 ^ 31 := by omega
    rw [firstDay, ih hn', daySum_succ n hn', Nat.mod_add_mod]

/-! ## The code -/

theorem toNat_ofNat_of_lt {n : ℕ} (hn : n < 2 ^ 31) : (BitVec.ofNat 32 n).toNat = n :=
  Nat.mod_eq_of_lt (by omega)

/-- The sum on the way to the result may overflow, but what is subtracted takes that back. -/
theorem toNat_years {y : ℕ} {a : BitVec 32} (h : years y + a.toNat + 1 < 2 ^ 31) :
    (BitVec.ofNat 32 y + (BitVec.ofNat 32 y).sdiv 4 - (BitVec.ofNat 32 y).sdiv 100 +
      (BitVec.ofNat 32 y).sdiv 400 + a + 1).toNat = years y + a.toNat + 1 := by
  have hle := le_years y
  have hy : (BitVec.ofNat 32 y).toNat = y := toNat_ofNat_of_lt (by omega)
  have h4 : ((BitVec.ofNat 32 y).sdiv 4).toNat = y / 4 := by
    rw [toNat_sdiv (by omega) (by decide), hy]
    rfl
  have h100 : ((BitVec.ofNat 32 y).sdiv 100).toNat = y / 100 := by
    rw [toNat_sdiv (by omega) (by decide), hy]
    rfl
  have h400 : ((BitVec.ofNat 32 y).sdiv 400).toNat = y / 400 := by
    rw [toNat_sdiv (by omega) (by decide), hy]
    rfl
  have hdiv : y / 100 ≤ y / 4 := Nat.div_le_div_left (by norm_num) (by norm_num)
  have hone : (1 : BitVec 32).toNat = 1 := rfl
  unfold years at h ⊢
  simp only [BitVec.toNat_add, BitVec.toNat_sub, hy, h4, h100, h400, hone]
  omega

theorem dayofweek_eq {m y : ℕ} (hm : 1 ≤ m) (hm' : m ≤ 12) (hy : 1 ≤ y) (h : daySum m y < 2 ^ 31) :
    (dayofweek 1 (BitVec.ofNat 32 m) (BitVec.ofNat 32 y)).toNat = daySum m y % 7 := by
  have hle := @le_daySum m y hy
  have hslt : (BitVec.ofNat 32 m).slt 3 = decide (m < 3) := by
    interval_cases m <;> rfl
  have hidx : (BitVec.ofNat 32 m - 1).toNat = m - 1 := by
    interval_cases m <;> rfl
  have hyear : (if (BitVec.ofNat 32 m).slt 3 then BitVec.ofNat 32 y - 1 else BitVec.ofNat 32 y) =
      BitVec.ofNat 32 (if m < 3 then y - 1 else y) := by
    rw [hslt]
    split_ifs with h₁ h₂ h₂
    · apply BitVec.eq_of_toNat_eq
      rw [BitVec.toNat_sub, toNat_ofNat_of_lt (by omega), toNat_ofNat_of_lt (by omega)]
      simp
      omega
    · simp [h₂] at h₁
    · simp [h₂] at h₁
    · rfl
  unfold dayofweek
  rw [hyear, hidx]
  unfold daySum at h ⊢
  have hsum := toNat_years h
  rw [toNat_srem (by omega) (by decide), hsum]
  rfl

/-- For every month whose sum in `dayofweek` is an `int`: the result is a weekday, and it is that of
the first of the month, counted on from January of year 1. -/
theorem dayofweek_gregorian {m y : ℕ} (hm : 1 ≤ m) (hm' : m ≤ 12) (hy : 1 ≤ y)
    (h : daySum m y ≤ 2 ^ 31 - 1) :
    let w := dayofweek 1 (BitVec.ofNat 32 m) (BitVec.ofNat 32 y)
    0 ≤ w.toInt ∧ w.toInt ≤ 6 ∧ w.toInt = firstDay (12 * (y - 1) + (m - 1)) := by
  intro w
  have hle := @le_daySum m y hy
  have hw : w.toNat = daySum m y % 7 := dayofweek_eq hm hm' hy (by omega)
  have hmod : (12 * (y - 1) + (m - 1)) % 12 + 1 = m := by omega
  have hdiv : (12 * (y - 1) + (m - 1)) / 12 + 1 = y := by omega
  have hfirst := firstDay_eq (12 * (y - 1) + (m - 1)) (by omega)
  rw [hmod, hdiv, ← hw] at hfirst
  have hint : w.toInt = w.toNat := by
    rw [BitVec.toInt_eq_toNat_cond, if_pos (by omega)]
  rw [hint, hfirst]
  omega

theorem dayofweek_gregorian_2000 : dayofweek 1 3 2000 = 3 ∧ firstDay (12 * 1999 + 2) = 3 := by
  have h := dayofweek_gregorian (m := 3) (y := 2000) (by norm_num) (by norm_num) (by norm_num)
    (by decide)
  have hw : dayofweek 1 3 2000 = 3 := by decide
  refine ⟨hw, ?_⟩
  have := h.2.2
  rw [show BitVec.ofNat 32 3 = 3 by rfl, show BitVec.ofNat 32 2000 = 2000 by rfl, hw] at this
  exact (Int.ofNat.inj this).symm

end DuckoUnix.Cal
