import DuckoUnix.Exec.Model

/-!
# User programs and their system calls

A user process as its program sees it: its memory from address 0 up to `sz`, without the pages and
tables underneath, and the registers that compiled code uses. `enter` is `exec` in these terms: it
loads the segments of a file, puts a page that the user cannot reach and a stack page behind them,
and pushes the arguments. `step` runs one machine instruction; a system call goes through `syscall`
and `argint` of `syscall.c`.

Only the instructions and the system calls that `dcc` emits are there. What the ports written by
`sys_reboot` do to the machine is outside of the model: the call returns 0, as the code says.
-/

namespace DuckoUnix.Dcc

open Lib Exec Vm

/-- A process running in user mode. -/
structure User where
  mem : Bytes
  sz : ℕ
  eip : ℕ
  esp : ℕ
  eax : ℕ

namespace User

/-- The user can reach `a`: it is below `sz` and not in the page below the stack. -/
def Reaches (u : User) (a : ℕ) : Prop :=
  a < u.sz ∧ ¬ (u.sz - 2 * PGSIZE ≤ a ∧ a < u.sz - PGSIZE)

instance (u : User) (a : ℕ) : Decidable (u.Reaches a) := inferInstanceAs (Decidable (_ ∧ _))

/-- The user can reach the `n` bytes at `a`. -/
def Covers (u : User) (a n : ℕ) : Prop := ∀ i < n, u.Reaches (a + i)

instance (u : User) (a n : ℕ) : Decidable (u.Covers a n) := inferInstanceAs (Decidable (∀ i < n, _))

end User

/-! ## exec -/

/-- The loop over the program headers of `exec`, with `n` to go. -/
def loadAll (ip : File) : ℕ → ℕ → ℕ → Bytes → Option (ℕ × Bytes)
  | 0, _, sz, mem => some (sz, mem)
  | n + 1, off, sz, mem =>
    match readProghdr ip off with
    | none => none
    | some ph =>
      if ph.type ≠ ELF_PROG_LOAD then loadAll ip n ((off + 32) % UINT) sz mem
      else if ph.memsz < ph.filesz then none
      else if (ph.vaddr + ph.memsz) % UINT < ph.vaddr then none
      else if KERNBASE ≤ ph.vaddr + ph.memsz ∨ max sz (ph.vaddr + ph.memsz) = 0 then none
      else if ph.vaddr % PGSIZE ≠ 0 then none
      else if readi ip ph.off ph.filesz = some ph.filesz then
        loadAll ip n ((off + 32) % UINT) (max sz (ph.vaddr + ph.memsz)) fun a =>
          if ph.vaddr ≤ a ∧ a < ph.vaddr + ph.filesz then ip.data (ph.off + (a - ph.vaddr))
          else mem a
      else none

/-- `copyout` to addresses that the user can reach; none for -1. -/
def User.copyout (u : User) (va : ℕ) (buf : List (BitVec 8)) : Option User :=
  if u.Covers va buf.length then some { u with mem := blit u.mem va buf } else none

/-- The loop that pushes the argument strings. -/
def pushStrings : User → List ℕ → List Exec.Str → Option (User × List ℕ)
  | u, ustack, [] => some (u, ustack)
  | u, ustack, arg :: argv =>
    if MAXARG ≤ ustack.length then none
    else
      match { u with esp := nextSp u.esp arg }.copyout (nextSp u.esp arg) (arg ++ [0]) with
      | none => none
      | some u => pushStrings u (ustack ++ [u.esp]) argv

/-- `exec` of the file `ip` with the arguments `argv`; none for -1. -/
def enter (ip : File) (argv : List Exec.Str) : Option User :=
  match readElfhdr ip with
  | none => none
  | some elf =>
    if elf.magic ≠ ELF_MAGIC then none
    else
      match loadAll ip elf.phnum elf.phoff 0 fun _ => 0 with
      | none => none
      | some (sz, mem) =>
        let sz := PGROUNDUP sz + 2 * PGSIZE
        if KERNBASE ≤ sz then none
        else
          match pushStrings ⟨mem, sz, elf.entry, sz, 0⟩ [] argv with
          | none => none
          | some (u, ustack) =>
            let argc := ustack.length
            let words := [0xffffffff, argc, (u.esp + UINT - (argc + 1) * 4) % UINT] ++ ustack ++ [0]
            let sp := (u.esp + UINT - (3 + argc + 1) * 4) % UINT
            { u with esp := sp }.copyout sp (bytesOf words)

/-! ## System calls -/

/-- A system call with what it gets. -/
inductive Call
  /-- `sys_reboot`; none if `argint` fails -/
  | reboot (type : Option ℤ)
  | exit
  deriving DecidableEq, Repr

def fetchint (u : User) (addr : ℕ) : Option ℤ :=
  if u.sz ≤ addr ∨ u.sz < (addr + 4) % UINT then none
  else some (BitVec.ofNat 32 (getLE u.mem addr 4)).toInt

def argint (u : User) (n : ℕ) : Option ℤ := fetchint u ((u.esp + 4 + 4 * n) % UINT)

def SYS_exit : ℕ := 2
def SYS_reboot : ℕ := 23

/-- `sys_reboot`: the value that goes to `eax`. -/
def sysReboot (type : Option ℤ) : ℕ :=
  match type with
  | none => UINT - 1
  | some _ => 0

/-- `syscall`, for the two numbers that are modelled. -/
def syscall (u : User) : Option (Call × User) :=
  if u.eax = SYS_reboot then some (.reboot (argint u 0), { u with eax := sysReboot (argint u 0) })
  else if u.eax = SYS_exit then some (.exit, u)
  else none

/-! ## Instructions -/

/-- `pushl $imm8`: the byte is sign-extended. None if the stack cannot be written. -/
def push (u : User) : Option User :=
  let sp := (u.esp + UINT - 4) % UINT
  if u.Covers u.eip 2 ∧ u.Covers sp 4 then
    some { u with
      mem := putLE u.mem sp 4 ((u.mem (u.eip + 1)).signExtend 32).toNat
      esp := sp
      eip := u.eip + 2 }
  else none

def mov (u : User) : Option User :=
  if u.Covers u.eip 5 then some { u with eax := getLE u.mem (u.eip + 1) 4, eip := u.eip + 5 } else none

/-- One instruction, with the system call it makes; none if it faults or is not modelled. -/
def step (u : User) : Option (Option Call × User) :=
  if u.mem u.eip = 0x6A then (push u).map fun u => (none, u)
  else if u.mem u.eip = 0xB8 then (mov u).map fun u => (none, u)
  else if u.mem u.eip = 0xCD ∧ u.mem (u.eip + 1) = 0x40 ∧ u.Covers u.eip 2 then
    (syscall { u with eip := u.eip + 2 }).map fun r => (some r.1, r.2)
  else none

/-- The system calls of the first `n` instructions, up to `exit`. -/
def calls : ℕ → User → List Call
  | 0, _ => []
  | n + 1, u =>
    match step u with
    | none => []
    | some (none, u) => calls n u
    | some (some .exit, _) => [.exit]
    | some (some c, u) => c :: calls n u

end DuckoUnix.Dcc
