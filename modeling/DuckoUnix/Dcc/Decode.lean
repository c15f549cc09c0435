import DuckoUnix.Dcc.Accept

/-!
# The instructions that dcc emits

The code of an accepted program is a straight line of `pushl`, `movl` and `int $64`. It can be taken
apart in one way only, its system calls are those of the program, and the last one is `exit`. So a
process that runs it never leaves it.
-/

namespace DuckoUnix.Dcc

open Lib Exec Vm

/-! ## Instructions -/

/-- The instructions that dcc emits. -/
inductive Instr
  /-- `pushl $imm8` -/
  | push (imm : BitVec 8)
  /-- `movl $imm32, %eax` -/
  | mov (imm : BitVec 32)
  /-- `int $64` -/
  | int
  deriving DecidableEq

def Instr.bytes : Instr → Str
  | push i => [0x6A, i]
  | mov i =>
    [0xB8, i.setWidth 8, (i >>> 8).setWidth 8, (i >>> 16).setWidth 8, (i >>> 24).setWidth 8]
  | int => [0xCD, 0x40]

def encode (is : List Instr) : Str := is.flatMap Instr.bytes

theorem encode_cons (i : Instr) (is : List Instr) : encode (i :: is) = i.bytes ++ encode is :=
  List.flatMap_cons

theorem encode_length (i : Instr) (is : List Instr) :
    (encode (i :: is)).length = i.bytes.length + (encode is).length := by
  rw [encode_cons, List.length_append]

def callInstrs (num : BitVec 32) : List Instr := [.mov num, .int]

/-- The state after `n` instructions; none if the process has called `exit` or has faulted. -/
def after : ℕ → User → Option User
  | 0, u => some u
  | n + 1, u =>
    match step u with
    | none => none
    | some (some .exit, _) => none
    | some (_, u) => after n u

/-- The code that is left when `eax` has some value: it makes `reboot` calls and then `exit`. -/
inductive Tail : ℕ → List Instr → Prop
  | exit {eax : ℕ} {is : List Instr} : Tail eax (callInstrs 2 ++ is)
  | exitInt {is : List Instr} : Tail SYS_exit (.int :: is)
  | push {eax : ℕ} {i : BitVec 8} {is : List Instr} (h : ∀ e, Tail e is) :
      Tail eax (.push i :: callInstrs 23 ++ is)
  | mov {eax : ℕ} {is : List Instr} (h : ∀ e, Tail e is) : Tail eax (callInstrs 23 ++ is)
  | int {is : List Instr} (h : ∀ e, Tail e is) : Tail SYS_reboot (.int :: is)

/-- A process with the code `is` in front of it, which ends at the address `stop`. -/
structure Inside (stop : ℕ) (u : User) (is : List Instr) : Prop where
  runs : Runs u (encode is)
  stacked : Stacked u
  tail : Tail u.eax is
  stop_eq : u.eip + (encode is).length = stop

section Run

variable {u u' : User} {is : List Instr} {stop n : ℕ} {c : Option Call}

theorem Inside.step_mov {num : BitVec 32} (hruns : Runs u (encode (callInstrs num ++ is)))
    (hst : Stacked u) (htail : Tail num.toNat (.int :: is))
    (hstop : u.eip + (encode (callInstrs num ++ is)).length = stop)
    (hs : step u = some (c, u')) : u.eip ≤ u'.eip ∧ ∃ is', Inside stop u' is' := by
  rw [Dcc.step_mov hruns] at hs
  cases hs
  refine ⟨Nat.le_add_right _ _, .int :: is, hruns.int _, ⟨hst.lo, hst.hi, hst.pages, hst.lt⟩, htail, ?_⟩
  rw [← hstop]
  have hlen : (encode (callInstrs num ++ is)).length = 5 + _ := encode_length (.mov num) (.int :: is)
  show u.eip + 5 + _ = _
  omega

/-- A process that has not called `exit` is still in the code after an instruction. -/
theorem Inside.step (h : Inside stop u is) (hs : step u = some (c, u')) (hc : c ≠ some .exit) :
    u.eip ≤ u'.eip ∧ ∃ is', Inside stop u' is' := by
  obtain ⟨hruns, hst, htail, hstop⟩ := h
  generalize heax : u.eax = eax at htail
  cases htail with
  | exit => exact Inside.step_mov hruns hst .exitInt hstop hs
  | exitInt =>
    rw [step_int hruns] at hs
    have hexit : syscall { u with eip := u.eip + 2 } = some (.exit, { u with eip := u.eip + 2 }) := by
      unfold syscall
      rw [heax]
      rfl
    rw [hexit] at hs
    cases hs
    exact absurd rfl hc
  | @push _ i is hrest =>
    have hcode : encode (.push i :: callInstrs 23 ++ is) =
        rebootCode (i.setWidth 32) ++ encode is := by
      unfold rebootCode
      rw [BitVec.setWidth_setWidth_of_le _ (by decide), BitVec.setWidth_eq]
      rfl
    have hreboot := hruns
    rw [hcode] at hreboot
    by_cases hroom : u.sz - PGSIZE + 4 ≤ u.esp
    · rw [step_push hreboot hst hroom] at hs
      cases hs
      refine ⟨Nat.le_add_right _ _, callInstrs 23 ++ is, runs_pushed hreboot hst hroom,
        stacked_pushed hst hroom, .mov hrest, ?_⟩
      rw [← hstop]
      have hlen : (encode (.push i :: callInstrs 23 ++ is)).length = 2 + _ :=
        encode_length (.push i) (callInstrs 23 ++ is)
      show u.eip + 2 + _ = _
      omega
    · rw [step_no_room hreboot hst hroom] at hs
      cases hs
  | mov hrest => exact Inside.step_mov hruns hst (.int hrest) hstop hs
  | @int is hrest =>
    rw [step_int hruns] at hs
    have hreboot : syscall { u with eip := u.eip + 2 } = some (.reboot (argint { u with eip := u.eip + 2 } 0),
        { u with eip := u.eip + 2, eax := sysReboot (argint { u with eip := u.eip + 2 } 0) }) := by
      unfold syscall
      rw [if_pos heax]
    rw [hreboot] at hs
    cases hs
    refine ⟨Nat.le_add_right _ _, is, ?_, ⟨hst.lo, hst.hi, hst.pages, hst.lt⟩, hrest _, ?_⟩
    · exact Runs.drop hruns (fun _ _ => rfl) rfl rfl
    · rw [← hstop]
      have hlen : (encode (.int :: is)).length = 2 + _ := encode_length .int is
      show u.eip + 2 + _ = _
      omega

theorem Inside.after (h : Inside stop u is) (hn : after n u = some u') :
    u.eip ≤ u'.eip ∧ ∃ is', Inside stop u' is' := by
  induction n generalizing u is with
  | zero =>
    cases hn
    exact ⟨Nat.le_refl _, is, h⟩
  | succ n ih =>
    unfold Dcc.after at hn
    split at hn
    · cases hn
    · cases hn
    · rename_i c t hne hs
      obtain ⟨hle, is', h'⟩ := h.step hs hne
      obtain ⟨hle', hrest⟩ := ih h' hn
      exact ⟨Nat.le_trans hle hle', hrest⟩

end Run

end DuckoUnix.Dcc
