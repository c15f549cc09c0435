import DuckoUnix.Lib.Bytes
import DuckoUnix.Lib.Wp
import DuckoUnix.Param

/-!
# Physical pages and page table entries

`kalloc.c`, the memory layout of `memlayout.h` and the page table entries of `mmu.h`. A physical
page is given by its number, a page frame; its contents are bytes. The free list is the list of
the frames that `kmem.freelist` links through.

`kalloc` can be made to fail at any call: `fails` says for the calls to come which of them find
no page although there are some. `kfree` of a page that is on the free list does not panic in the
source; here it is a fault of its own, so that it can be stated that it does not happen.
-/

namespace DuckoUnix.Vm

open Lib

/-! ## Layout -/

/-- bytes mapped by a page -/
def PGSIZE : ℕ := 4096
/-- start of extended memory -/
def EXTMEM : ℕ := 0x100000
/-- top physical memory -/
def PHYSTOP : ℕ := 0xE000000
/-- other devices are at high addresses -/
def DEVSPACE : ℕ := 0xFE000000
/-- first kernel virtual address -/
def KERNBASE : ℕ := 0x80000000
/-- address where kernel is linked -/
def KERNLINK : ℕ := KERNBASE + EXTMEM

/-- `uint` arithmetic is modulo this. -/
def UINT : ℕ := 4294967296

def PGROUNDDOWN (a : ℕ) : ℕ := a / PGSIZE * PGSIZE
def PGROUNDUP (sz : ℕ) : ℕ := PGROUNDDOWN ((sz + (PGSIZE - 1)) % UINT)

/-- The symbols of `kernel.ld`: `data`, which starts a page after the kernel text, and `end`. -/
structure Layout where
  data : ℕ
  kend : ℕ
  data_aligned : data % PGSIZE = 0
  text_nonempty : KERNLINK < data
  data_le_kend : data ≤ kend
  data_lt : data < KERNBASE + PHYSTOP
  kend_le : kend ≤ KERNBASE + PHYSTOP

/-- A physical page number. -/
abbrev Frame := BitVec 20

/-- The page `f` may be given to `kfree`. -/
def Layout.Valid (L : Layout) (f : Frame) : Prop :=
  L.kend ≤ KERNBASE + f.toNat * PGSIZE ∧ f.toNat * PGSIZE < PHYSTOP

instance (L : Layout) (f : Frame) : Decidable (L.Valid f) := inferInstanceAs (Decidable (_ ∧ _))

/-! ## Page table entries -/

/-- present -/
def PTE_P : BitVec 12 := 0x001
/-- writeable -/
def PTE_W : BitVec 12 := 0x002
/-- user -/
def PTE_U : BitVec 12 := 0x004

/-- `pa | flags` for the page frame `f` of `pa`. -/
def mkPte (f : Frame) (flags : BitVec 12) : BitVec 32 := f ++ flags

def PTE_ADDR (e : BitVec 32) : Frame := e.extractLsb' 12 20
def PTE_FLAGS (e : BitVec 32) : BitVec 12 := e.extractLsb' 0 12

/-- `*pte & PTE_P` -/
def present (e : BitVec 32) : Bool := e.getLsbD 0
/-- `*pte & PTE_U` -/
def user (e : BitVec 32) : Bool := e.getLsbD 2

@[simp] theorem PTE_ADDR_mkPte (f : Frame) (flags : BitVec 12) : PTE_ADDR (mkPte f flags) = f :=
  BitVec.extractLsb'_append_eq_left

@[simp] theorem PTE_FLAGS_mkPte (f : Frame) (flags : BitVec 12) :
    PTE_FLAGS (mkPte f flags) = flags :=
  BitVec.extractLsb'_append_eq_right

@[simp] theorem present_mkPte (f : Frame) (flags : BitVec 12) :
    present (mkPte f (flags ||| PTE_P)) = true := by
  unfold present mkPte
  rw [BitVec.getLsbD_append, BitVec.getLsbD_or]
  simp [PTE_P]

@[simp] theorem user_mkPte (f : Frame) (flags : BitVec 12) :
    user (mkPte f (flags ||| PTE_P)) = flags.getLsbD 2 := by
  unfold user mkPte
  rw [BitVec.getLsbD_append, BitVec.getLsbD_or]
  simp [PTE_P]

@[simp] theorem present_zero : present 0 = false := rfl

/-- `*pte &= ~PTE_U` -/
def clearU (e : BitVec 32) : BitVec 32 := e &&& ~~~(4 : BitVec 32)

@[simp] theorem present_clearU (e : BitVec 32) : present (clearU e) = present e := by
  simp [present, clearU]

@[simp] theorem user_clearU (e : BitVec 32) : user (clearU e) = false := by
  simp [user, clearU]

@[simp] theorem PTE_ADDR_clearU (e : BitVec 32) : PTE_ADDR (clearU e) = PTE_ADDR e := by
  have hbits : ∀ i, i < 20 → (~~~(4 : BitVec 32)).getLsbD (12 + i) = true := by decide
  unfold PTE_ADDR clearU
  ext i hi
  rw [BitVec.getElem_extractLsb', BitVec.getElem_extractLsb', BitVec.getLsbD_and, hbits i hi,
    Bool.and_true]

/-- Entry `i` of a page directory or page table. -/
def readPte (pg : Bytes) (i : ℕ) : BitVec 32 := BitVec.ofNat 32 (getLE pg (i * 4) 4)

def writePte (pg : Bytes) (i : ℕ) (e : BitVec 32) : Bytes := putLE pg (i * 4) 4 e.toNat

@[simp] theorem readPte_writePte (pg : Bytes) (i : ℕ) (e : BitVec 32) :
    readPte (writePte pg i e) i = e := by
  unfold readPte writePte
  have he : e.toNat % 256 ^ 4 = e.toNat := Nat.mod_eq_of_lt e.isLt
  rw [getLE_putLE, he, BitVec.ofNat_toNat, BitVec.setWidth_eq]

theorem readPte_writePte_of_ne {pg : Bytes} {i j : ℕ} {e : BitVec 32} (h : j ≠ i) :
    readPte (writePte pg i e) j = readPte pg j := by
  unfold readPte writePte
  rw [getLE_putLE_of_disjoint (by omega)]

@[simp] theorem readPte_zero (i : ℕ) : readPte (fun _ => 0) i = 0 := rfl

/-! ## The allocator -/

/-- Physical memory with the free list, and which of the next `kalloc`s fail. -/
structure Mem where
  mem : Frame → Bytes
  freelist : List Frame
  fails : List Bool

/-- What stops the kernel. -/
inductive Fault
  /-- `panic("kfree")` -/
  | kfree
  /-- `kfree` of a page on the free list -/
  | freeOfFree
  /-- `panic("remap")` -/
  | remap
  /-- `panic("PHYSTOP too high")` -/
  | phystop
  /-- `panic("freevm: no pgdir")` -/
  | noPgdir
  /-- `panic("clearpteu")` -/
  | clearpteu
  /-- `panic("loaduvm: addr must be page aligned")` -/
  | loadAlign
  /-- `panic("loaduvm: address should exist")` -/
  | loadMissing
  /-- `panic("copyuvm: pte should exist")` -/
  | copyMissing
  /-- `panic("copyuvm: page not present")` -/
  | copyAbsent
  /-- a null pointer is dereferenced -/
  | nullDeref
  /-- `panic("inituvm: more than a page")` -/
  | initLarge
  /-- `panic("userinit: out of memory?")` -/
  | userinit
  /-- `panic("init exiting")` -/
  | initExiting
  /-- `panic("filedup")` -/
  | filedup
  /-- `panic("fileclose")` -/
  | fileclose
  deriving DecidableEq

abbrev K := Prog Mem Fault

/-- `kalloc`, which returns no page when the free list is empty or when it is made to fail. -/
def kalloc : K (Option Frame) := do
  let s ← get
  match s.fails.headD false, s.freelist with
  | false, f :: fs => do
    set { s with freelist := fs, fails := s.fails.tail }
    return some f
  | _, _ => do
    set { s with fails := s.fails.tail }
    return none

def memset (f : Frame) (c : BitVec 8) : K Unit :=
  modify fun s => { s with mem := Function.update s.mem f fun _ => c }

def kfree (L : Layout) (f : Frame) : K Unit := do
  if ¬ L.Valid f then throw .kfree
  if f ∈ (← get).freelist then throw .freeOfFree
  memset f 1
  modify fun s => { s with freelist := f :: s.freelist }

end DuckoUnix.Vm
