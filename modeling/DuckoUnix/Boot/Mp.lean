import Mathlib.Data.BitVec
import Mathlib.Logic.Function.Basic

/-!
# The MP configuration table

The loop of `mpinit` over the entries of the table that `mpconfig` has found. Addresses are offsets
from the header of the table, which lies in memory without wrapping around. The `break` of the default
case leaves the `switch` and not the loop, so an entry of an unknown type is looked at forever. The
interrupt mode register, which is set at the end, is left out.
-/

namespace DuckoUnix.Mp

open Function

/-- maximum number of CPUs -/
def NCPU : ℕ := 8

/-- entry types -/
def MPPROC : BitVec 8 := 0x00
def MPBUS : BitVec 8 := 0x01
def MPIOAPIC : BitVec 8 := 0x02
def MPIOINTR : BitVec 8 := 0x03
def MPLINTR : BitVec 8 := 0x04

/-- `sizeof(struct mpconf)` -/
def CONF : ℕ := 44
/-- `sizeof(struct mpproc)` -/
def PROC : ℕ := 20
/-- `sizeof(struct mpioapic)` -/
def IOAPIC : ℕ := 8

/-- The variables of the loop; `apicid i` is `cpus[i].apicid`. -/
structure Scan where
  p : ℕ
  ncpu : ℕ
  apicid : ℕ → BitVec 8
  ioapicid : BitVec 8
  ismp : Bool

variable (conf : ℕ → BitVec 8)

/-- A round of the loop. -/
def round (s : Scan) : Scan :=
  if conf s.p = MPPROC then
    let s := if s.ncpu < NCPU then
        { s with apicid := update s.apicid s.ncpu (conf (s.p + 1)), ncpu := s.ncpu + 1 }
      else s
    { s with p := s.p + PROC }
  else if conf s.p = MPIOAPIC then { s with ioapicid := conf (s.p + 1), p := s.p + IOAPIC }
  else if conf s.p = MPBUS ∨ conf s.p = MPIOINTR ∨ conf s.p = MPLINTR then { s with p := s.p + 8 }
  else { s with ismp := false }

/-- The loop up to `e`, for at most `n` rounds. -/
def scan (e : ℕ) : ℕ → Scan → Option Scan
  | 0, _ => none
  | n + 1, s => if s.p < e then scan e n (round conf s) else some s

inductive Panic
  /-- "Didn't find a suitable machine" -/
  | notSuitable

/-- The loop starts behind the header, with no processor found yet. -/
def start (ioapicid : BitVec 8) (apicid : ℕ → BitVec 8) : Scan := ⟨CONF, 0, apicid, ioapicid, true⟩

/-- `mpinit` on a table of `length` bytes, with at most `n` rounds of its loop; none if they are not
enough. -/
def mpinit (length : BitVec 16) (n : ℕ) (s : Scan) : Option (Except Panic Scan) :=
  (scan conf length.toNat n s).map fun s => if s.ismp then .ok s else .error .notSuitable

/-! ## The entries -/

/-- The size of an entry, by its type; none for a type that is not known. -/
def size (type : BitVec 8) : Option ℕ :=
  if type = MPPROC then some PROC
  else if type = MPIOAPIC then some IOAPIC
  else if type = MPBUS ∨ type = MPIOINTR ∨ type = MPLINTR then some 8
  else none

/-- Going from entry to entry from `p` on, one of unknown type is met before `e`. -/
inductive MeetsUnknown (e : ℕ) : ℕ → Prop
  | here {p : ℕ} : p < e → size (conf p) = none → MeetsUnknown e p
  | next {p k : ℕ} : p < e → size (conf p) = some k → MeetsUnknown e (p + k) → MeetsUnknown e p

variable {conf} {e : ℕ} {s : Scan}

theorem size_pos {type : BitVec 8} {k : ℕ} (h : size type = some k) : 0 < k := by
  unfold size at h
  split_ifs at h <;> cases h <;> decide

theorem round_of_unknown (h : size (conf s.p) = none) : round conf s = { s with ismp := false } := by
  unfold size at h
  unfold round
  split_ifs at h ⊢
  rfl

theorem round_of_known {k : ℕ} (h : size (conf s.p) = some k) :
    (round conf s).p = s.p + k ∧ (round conf s).ismp = s.ismp := by
  unfold size at h
  unfold round
  split_ifs at h ⊢ <;> cases h <;> exact ⟨rfl, rfl⟩

theorem ncpu_round (h : s.ncpu ≤ NCPU) : (round conf s).ncpu ≤ NCPU := by
  unfold round
  split_ifs with _ hlt
  · exact hlt
  all_goals exact h

/-- However many rounds are made, the processors found are not more than there is room for. -/
theorem ncpu_rounds (h : s.ncpu ≤ NCPU) (n : ℕ) : ((round conf)^[n] s).ncpu ≤ NCPU := by
  induction n with
  | zero => exact h
  | succ n ih =>
    rw [iterate_succ_apply']
    exact ncpu_round ih

/-! ## The loop -/

theorem scan_unknown (hlt : s.p < e) (h : size (conf s.p) = none) (n : ℕ) :
    scan conf e n s = none := by
  induction n generalizing s with
  | zero => rfl
  | succ n ih =>
    rw [scan, if_pos hlt, round_of_unknown h]
    exact ih hlt h

theorem scan_of_meets {p : ℕ} (h : MeetsUnknown conf e p) (hp : s.p = p) (n : ℕ) :
    scan conf e n s = none := by
  induction h generalizing s n with
  | here hlt hnone =>
    subst hp
    exact scan_unknown hlt hnone n
  | next hlt hsome _ ih =>
    subst hp
    cases n with
    | zero => rfl
    | succ n =>
      rw [scan, if_pos hlt]
      exact ih (round_of_known hsome).1 n

/-- Without an unknown type every round gets closer to `e`. -/
theorem scan_ends (m : ℕ) (h : ¬MeetsUnknown conf e s.p) (hm : e - s.p ≤ m) :
    ∃ t, scan conf e (m + 1) s = some t ∧ t.ismp = s.ismp := by
  induction m generalizing s with
  | zero => exact ⟨s, if_neg (by omega), rfl⟩
  | succ m ih =>
    rw [scan]
    by_cases hlt : s.p < e
    · rw [if_pos hlt]
      cases hk : size (conf s.p) with
      | none => exact absurd (.here hlt hk) h
      | some k =>
        have hpos := size_pos hk
        obtain ⟨hp, hismp⟩ := round_of_known hk
        rw [← hismp]
        apply ih
        · rw [hp]
          exact fun hmeets => h (.next hlt hk hmeets)
        · omega
    · exact ⟨s, if_neg hlt, rfl⟩

/-- For every table: no round of the loop finds more than `NCPU` processors; and `mpinit` gets through
the loop and panics where an entry has an unknown type, exactly if there is no such entry. -/
theorem mpinit_ends_iff (conf : ℕ → BitVec 8) (length : BitVec 16) (ioapicid : BitVec 8)
    (apicid : ℕ → BitVec 8) :
    (∀ n, ((round conf)^[n] (start ioapicid apicid)).ncpu ≤ NCPU) ∧
    ((∃ n r, mpinit conf length n (start ioapicid apicid) = some r) ∧
      (MeetsUnknown conf length.toNat CONF →
        ∃ n, mpinit conf length n (start ioapicid apicid) = some (.error .notSuitable)) ↔
      ¬MeetsUnknown conf length.toNat CONF) := by
  refine ⟨ncpu_rounds (Nat.zero_le _), ?_, fun h => ⟨?_, fun hmeets => absurd hmeets h⟩⟩
  · rintro ⟨⟨n, r, hr⟩, -⟩ hmeets
    unfold mpinit at hr
    rw [scan_of_meets hmeets rfl] at hr
    cases hr
  · obtain ⟨t, ht, -⟩ := scan_ends (s := start ioapicid apicid) _ h (Nat.le_refl _)
    exact ⟨_, _, by unfold mpinit; rw [ht]; rfl⟩

/-- A table with one entry, of type 5. -/
theorem unknown_entry_spins : MeetsUnknown (fun a => if a = CONF then 5 else 0) 52 CONF ∧
    ∀ n, mpinit (fun a => if a = CONF then 5 else 0) 52 n (start 0 fun _ => 0) = none := by
  refine ⟨.here (by decide) (by decide), fun n => ?_⟩
  unfold mpinit
  rw [scan_unknown (by decide) (by decide)]
  rfl

end DuckoUnix.Mp
