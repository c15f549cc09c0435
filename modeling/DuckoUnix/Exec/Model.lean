import DuckoUnix.Vm.Model

/-!
# exec

`exec.c` with `loaduvm` of `vm.c`. The file is locked while it is loaded and is given by its
contents; `readi` is the arithmetic of `fs.c` for a file that is not a device. `loadImage` is
`exec` up to the stack pages, `pushArgs` copies the arguments, and `exec` commits to the new image
or frees it.

The arguments are strings of the caller, which `exec` reads where they are. Only the program name
kept for debugging is left out.
-/

namespace DuckoUnix.Exec

open Lib Vm

/-! ## The file -/

/-- The contents of an executable file. -/
structure File where
  size : ℕ
  data : Bytes

/-- How many bytes `readi` reads at `off` when asked for `n`; none for -1. -/
def readi (ip : File) (off n : ℕ) : Option ℕ :=
  if ip.size < off ∨ (off + n) % UINT < off then none
  else if ip.size < off + n then some (ip.size - off) else some n

def ELF_MAGIC : ℕ := 0x464C457F
def ELF_PROG_LOAD : ℕ := 1

structure Elfhdr where
  magic : ℕ
  entry : ℕ
  phoff : ℕ
  phnum : ℕ

/-- The header at the start of the file, if it can be read in full. -/
def readElfhdr (ip : File) : Option Elfhdr :=
  if readi ip 0 52 = some 52 then
    some ⟨getLE ip.data 0 4, getLE ip.data 24 4, getLE ip.data 28 4, getLE ip.data 44 2⟩
  else none

structure Proghdr where
  type : ℕ
  off : ℕ
  vaddr : ℕ
  filesz : ℕ
  memsz : ℕ

/-- The program header at `off`, if it can be read in full. -/
def readProghdr (ip : File) (off : ℕ) : Option Proghdr :=
  if readi ip off 32 = some 32 then
    some ⟨getLE ip.data off 4, getLE ip.data (off + 4) 4, getLE ip.data (off + 8) 4,
      getLE ip.data (off + 16) 4, getLE ip.data (off + 20) 4⟩
  else none

/-! ## Loading -/

/-- The page `pg` with `n` bytes of the file at `off` read over its start. -/
def readOver (pg : Bytes) (ip : File) (off n : ℕ) : Bytes := fun j =>
  if j < n then ip.data (off + j) else pg j

/-- The loop of `loaduvm` from byte `i` on; false for -1. -/
def loadLoop (pgdir : Frame) (addr : ℕ) (ip : File) (offset sz : ℕ) : ℕ → ℕ → K Bool
  | 0, _ => return true
  | k + 1, i => do
    if i < sz then
      match ← walkpgdir pgdir ((addr + i) % UINT) false with
      | none => throw .loadMissing
      | some (pgtab, j) => do
        let e ← load pgtab j
        let n := if sz - i < PGSIZE then sz - i else PGSIZE
        let off := (offset + i) % UINT
        let r := readi ip off n
        modify fun s => { s with
          mem := Function.update s.mem (PTE_ADDR e)
            (readOver (s.mem (PTE_ADDR e)) ip off (r.getD 0)) }
        if r = some n then loadLoop pgdir addr ip offset sz k (i + PGSIZE) else return false
    else return true

/-- Load a program segment into `pgdir`. -/
def loaduvm (pgdir : Frame) (addr : ℕ) (ip : File) (offset sz : ℕ) : K Bool := do
  if addr % PGSIZE ≠ 0 then throw .loadAlign
  loadLoop pgdir addr ip offset sz (sz / PGSIZE + 1) 0

/-- The loop over the program headers, with `n` to go; none for `goto bad`. -/
def loadSegments (L : Layout) (ip : File) (pgdir : Frame) : ℕ → ℕ → ℕ → K (Option ℕ)
  | 0, _, sz => return some sz
  | n + 1, off, sz =>
    match readProghdr ip off with
    | none => return none
    | some ph => do
      if ph.type ≠ ELF_PROG_LOAD then loadSegments L ip pgdir n ((off + 32) % UINT) sz
      else if ph.memsz < ph.filesz then return none
      else if (ph.vaddr + ph.memsz) % UINT < ph.vaddr then return none
      else do
        let sz ← allocuvm L pgdir sz ((ph.vaddr + ph.memsz) % UINT)
        if sz = 0 then return none
        else if ph.vaddr % PGSIZE ≠ 0 then return none
        else do
          if ← loaduvm pgdir ph.vaddr ip ph.off ph.filesz then
            loadSegments L ip pgdir n ((off + 32) % UINT) sz
          else return none

/-- The program in memory, without its arguments. -/
structure Image where
  pgdir : Frame
  sz : ℕ
  entry : ℕ

/-- Give the half-made image up. -/
def bad (L : Layout) (pgdir : Frame) : K (Option Image) := do
  freevm L (some pgdir)
  return none

/-- Allocate two pages at the next page boundary and make the first inaccessible. -/
def stackPages (L : Layout) (pgdir : Frame) (sz entry : ℕ) : K (Option Image) := do
  let sz := PGROUNDUP sz
  let sz ← allocuvm L pgdir sz ((sz + 2 * PGSIZE) % UINT)
  if sz = 0 then bad L pgdir
  else do
    clearpteu pgdir (sz - 2 * PGSIZE)
    return some ⟨pgdir, sz, entry⟩

/-- The part of `exec` that makes the new address space: the segments, the guard page and the
stack page. -/
@[irreducible] def loadImage (L : Layout) (ip : File) : K (Option Image) :=
  match readElfhdr ip with
  | none => return none
  | some elf =>
    if elf.magic ≠ ELF_MAGIC then return none
    else do
      match ← setupkvm L with
      | none => return none
      | some pgdir => do
        match ← loadSegments L ip pgdir elf.phnum elf.phoff 0 with
        | none => bad L pgdir
        | some sz => stackPages L pgdir sz elf.entry

/-! ## Arguments -/

abbrev Str := List (BitVec 8)

/-- `(sp - (strlen(arg) + 1)) & ~3` -/
def nextSp (sp : ℕ) (arg : Str) : ℕ := (sp + UINT - (arg.length + 1)) % UINT / 4 * 4

/-- The loop that pushes the argument strings; `ustack` has their addresses so far. None for
`goto bad`. -/
def pushLoop (pgdir : Frame) : ℕ → List ℕ → List Str → K (Option (ℕ × List ℕ))
  | sp, ustack, [] => return some (sp, ustack)
  | sp, ustack, arg :: argv => do
    if MAXARG ≤ ustack.length then return none
    else if ← copyout pgdir (nextSp sp arg) (arg ++ [0]) then
      pushLoop pgdir (nextSp sp arg) (ustack ++ [nextSp sp arg]) argv
    else return none

def bytesOf (ws : List ℕ) : List (BitVec 8) :=
  ws.flatMap fun w => [BitVec.ofNat 8 w, BitVec.ofNat 8 (w / 256), BitVec.ofNat 8 (w / 65536),
    BitVec.ofNat 8 (w / 16777216)]

theorem bytesOf_length (ws : List ℕ) : (bytesOf ws).length = 4 * ws.length := by
  unfold bytesOf
  induction ws with
  | nil => rfl
  | cons w ws ih =>
    rw [List.flatMap_cons, List.length_append, ih]
    simp only [List.length_cons, List.length_nil]
    omega

/-- Push the argument strings and `ustack`; returns the stack pointer, or none for `goto bad`. -/
@[irreducible] def pushArgs (pgdir : Frame) (sz : ℕ) (argv : List Str) : K (Option ℕ) := do
  match ← pushLoop pgdir sz [] argv with
  | none => return none
  | some (sp, ustack) => do
    let argc := ustack.length
    let words := [0xffffffff, argc, (sp + UINT - (argc + 1) * 4) % UINT] ++ ustack ++ [0]
    let sp := (sp + UINT - (3 + argc + 1) * 4) % UINT
    if ← copyout pgdir sp (bytesOf words) then return some sp else return none

/-- `exec` by a process with page directory `oldpgdir`, of the file that `namei` finds. Returns
the new image with its stack pointer, or none for -1. -/
def exec (L : Layout) (ip : Option File) (argv : List Str) (oldpgdir : Frame) :
    K (Option (Image × ℕ)) :=
  match ip with
  | none => return none
  | some ip => do
    match ← loadImage L ip with
    | none => return none
    | some im => do
      match ← pushArgs im.pgdir im.sz argv with
      | none => do
        let _ ← bad L im.pgdir
        return none
      | some sp => do
        freevm L (some oldpgdir)
        return some (im, sp)

end DuckoUnix.Exec
