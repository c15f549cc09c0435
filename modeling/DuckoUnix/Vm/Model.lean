import DuckoUnix.Vm.Kalloc

/-!
# Virtual memory

`vm.c`: page directories and page tables, and the functions that build, grow, copy and free
address spaces. A page directory is given by its page frame; a pointer to an entry of a page table
is the table's frame with an index. Virtual addresses and sizes are numbers below `UINT`.

A `for` loop over pages is a recursion whose first argument bounds the number of its rounds: the
loops go up by a page at a time, so the bound given is never short.
-/

namespace DuckoUnix.Vm

open Lib Function

/-- entries of a page directory -/
def NPDENTRIES : ℕ := 1024

/-- page directory index -/
def PDX (va : ℕ) : ℕ := va / 4194304 % 1024
/-- page table index -/
def PTX (va : ℕ) : ℕ := va / 4096 % 1024

def load (f : Frame) (i : ℕ) : K (BitVec 32) := do
  return readPte ((← get).mem f) i

def store (f : Frame) (i : ℕ) (e : BitVec 32) : K Unit :=
  modify fun s => { s with mem := update s.mem f (writePte (s.mem f) i e) }

/-- The entry for `va`, with its page table made if `alloc` is set. -/
def walkpgdir (pgdir : Frame) (va : ℕ) (alloc : Bool) : K (Option (Frame × ℕ)) := do
  let pde ← load pgdir (PDX va)
  if present pde then
    return some (PTE_ADDR pde, PTX va)
  else if alloc then
    match ← kalloc with
    | none => return none
    | some pgtab => do
      memset pgtab 0
      store pgdir (PDX va) (mkPte pgtab (PTE_P ||| PTE_W ||| PTE_U))
      return some (pgtab, PTX va)
  else
    return none

/-- A round of the loop of `mappages`; false when there is no page for the page table. -/
def mapPage (pgdir : Frame) (perm : BitVec 12) (a : ℕ) (pa : Frame) : K Bool := do
  match ← walkpgdir pgdir a true with
  | none => return false
  | some (pgtab, i) => do
    if present (← load pgtab i) then throw .remap
    store pgtab i (mkPte pa (perm ||| PTE_P))
    return true

/-- The loop of `mappages` from `a`, with `n` pages to come after the first. -/
def mapLoop (pgdir : Frame) (perm : BitVec 12) : ℕ → ℕ → Frame → K Bool
  | 0, a, pa => mapPage pgdir perm a pa
  | n + 1, a, pa => do
    if ← mapPage pgdir perm a pa then mapLoop pgdir perm n (a + PGSIZE) (pa + 1)
    else return false

/-- Map the pages of `va` to `va + size` to those from frame `pa` on. -/
def mappages (pgdir : Frame) (va size : ℕ) (pa : Frame) (perm : BitVec 12) : K Bool :=
  let a := PGROUNDDOWN va
  let last := PGROUNDDOWN ((va + size + (UINT - 1)) % UINT)
  mapLoop pgdir perm ((last + UINT - a) % UINT / PGSIZE) a pa

/-- A round of the loop of `deallocuvm`, with the address it leaves in `a`. -/
def deallocPage (L : Layout) (pgdir : Frame) (a : ℕ) : K ℕ := do
  match ← walkpgdir pgdir a false with
  | none => return ((PDX a + 1) * 4194304 + UINT - PGSIZE) % UINT
  | some (pgtab, i) => do
    let e ← load pgtab i
    if present e then
      if PTE_ADDR e = 0 then throw .kfree
      kfree L (PTE_ADDR e)
      store pgtab i 0
    return a

def deallocLoop (L : Layout) (pgdir : Frame) (oldsz : ℕ) : ℕ → ℕ → K Unit
  | 0, _ => return
  | n + 1, a => do
    if a < oldsz then
      let a ← deallocPage L pgdir a
      deallocLoop L pgdir oldsz n ((a + PGSIZE) % UINT)

/-- Bring the process size from `oldsz` down to `newsz`; returns the new size. -/
def deallocuvm (L : Layout) (pgdir : Frame) (oldsz newsz : ℕ) : K ℕ := do
  if oldsz ≤ newsz then return oldsz
  deallocLoop L pgdir oldsz (oldsz / PGSIZE + 1) (PGROUNDUP newsz)
  return newsz

def allocLoop (L : Layout) (pgdir : Frame) (oldsz newsz : ℕ) : ℕ → ℕ → K ℕ
  | 0, _ => return newsz
  | n + 1, a => do
    if a < newsz then
      match ← kalloc with
      | none => do
        let _ ← deallocuvm L pgdir newsz oldsz
        return 0
      | some mem => do
        memset mem 0
        if ← mappages pgdir a PGSIZE mem (PTE_W ||| PTE_U) then
          allocLoop L pgdir oldsz newsz n (a + PGSIZE)
        else do
          let _ ← deallocuvm L pgdir newsz oldsz
          kfree L mem
          return 0
    else return newsz

/-- Bring the process size from `oldsz` up to `newsz`; returns the new size, or 0 on error. -/
@[irreducible] def allocuvm (L : Layout) (pgdir : Frame) (oldsz newsz : ℕ) : K ℕ := do
  if KERNBASE ≤ newsz then return 0
  if newsz < oldsz then return oldsz
  allocLoop L pgdir oldsz newsz (newsz / PGSIZE + 1) (PGROUNDUP oldsz)

/-- The second loop of `freevm`, from entry `i` with `n` entries to go. -/
def freeTables (L : Layout) (pgdir : Frame) : ℕ → ℕ → K Unit
  | 0, _ => return
  | n + 1, i => do
    let e ← load pgdir i
    if present e then kfree L (PTE_ADDR e)
    freeTables L pgdir n (i + 1)

/-- Free a page table and all the physical pages in the user part. -/
def freevm (L : Layout) : Option Frame → K Unit
  | none => throw .noPgdir
  | some pgdir => do
    let _ ← deallocuvm L pgdir KERNBASE 0
    freeTables L pgdir NPDENTRIES 0
    kfree L pgdir

/-- `struct kmap` -/
structure Kmap where
  virt : ℕ
  phys_start : ℕ
  phys_end : ℕ
  perm : BitVec 12

/-- The kernel's mappings, which are present in every process's page table. -/
def kmap (L : Layout) : List Kmap :=
  [⟨KERNBASE, 0, EXTMEM, PTE_W⟩,
   ⟨KERNLINK, KERNLINK - KERNBASE, L.data - KERNBASE, 0⟩,
   ⟨L.data, L.data - KERNBASE, PHYSTOP, PTE_W⟩,
   ⟨DEVSPACE, DEVSPACE, 0, PTE_W⟩]

def mapKernel (pgdir : Frame) : List Kmap → K Bool
  | [] => return true
  | k :: ks => do
    let size := (k.phys_end + UINT - k.phys_start) % UINT
    if ← mappages pgdir k.virt size (BitVec.ofNat 20 (k.phys_start / PGSIZE)) k.perm then
      mapKernel pgdir ks
    else return false

/-- Set up the kernel part of a page table. -/
def setupkvm (L : Layout) : K (Option Frame) := do
  match ← kalloc with
  | none => return none
  | some pgdir => do
    memset pgdir 0
    if DEVSPACE < KERNBASE + PHYSTOP then throw .phystop
    if ← mapKernel pgdir (kmap L) then return some pgdir
    else do
      freevm L (some pgdir)
      return none

def clearpteu (pgdir : Frame) (uva : ℕ) : K Unit := do
  match ← walkpgdir pgdir uva false with
  | none => throw .clearpteu
  | some (pgtab, i) => do
    let e ← load pgtab i
    store pgtab i (clearU e)

/-- Map a user virtual address to the frame behind it. -/
def uva2ka (pgdir : Frame) (uva : ℕ) : K (Option Frame) := do
  match ← walkpgdir pgdir uva false with
  | none => throw .nullDeref
  | some (pgtab, i) => do
    let e ← load pgtab i
    if ¬ present e then return none
    if ¬ user e then return none
    return some (PTE_ADDR e)

/-- The page `pg` with `bs` stored at `off`. -/
def blit (pg : Bytes) (off : ℕ) (bs : List (BitVec 8)) : Bytes := fun i =>
  if off ≤ i ∧ i < off + bs.length then bs.getD (i - off) 0 else pg i

def copyoutLoop (pgdir : Frame) : ℕ → ℕ → List (BitVec 8) → K Bool
  | 0, _, _ => return true
  | n + 1, va, buf => do
    if buf = [] then return true
    let va0 := PGROUNDDOWN va
    match ← uva2ka pgdir va0 with
    | none => return false
    | some pa0 => do
      let k := min (PGSIZE - (va - va0)) buf.length
      modify fun s =>
        { s with mem := update s.mem pa0 (blit (s.mem pa0) (va - va0) (buf.take k)) }
      copyoutLoop pgdir n ((va0 + PGSIZE) % UINT) (buf.drop k)

/-- Copy `buf` to user address `va` in page table `pgdir`; false on error. -/
def copyout (pgdir : Frame) (va : ℕ) (buf : List (BitVec 8)) : K Bool :=
  copyoutLoop pgdir buf.length va buf

end DuckoUnix.Vm
