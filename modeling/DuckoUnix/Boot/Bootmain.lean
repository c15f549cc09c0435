import DuckoUnix.Lib.Bytes
import Mathlib.Tactic

/-!
# The boot loader

`bootmain.c` up to the call of the kernel's entry point. Memory and disk are bytes by address, and
addresses are `uint`s. The kernel image begins at sector 1 of the disk. A segment is read in whole
sectors, which begin up to 511 bytes before it and end up to 511 bytes behind it: the bytes behind it
are put right by the segments that come later, the bytes before it are not.
-/

namespace DuckoUnix.Bootmain

open Lib

def SECTSIZE : ℕ := 512
def ELF_MAGIC : ℕ := 0x464C457F
def UINT : ℕ := 4294967296

theorem uint_eq : UINT = 2 ^ 32 := rfl

/-- Read a single sector at offset into `dst`; the drive takes 28 bits of the offset. -/
def readsect (disk m : Bytes) (dst offset : ℕ) : Bytes := fun a =>
  if (a + UINT - dst) % UINT < SECTSIZE then
    disk (offset % 2 ^ 28 * SECTSIZE + (a + UINT - dst) % UINT)
  else m a

/-- The loop of `readseg`, for at most `n` rounds. -/
def readLoop (disk : Bytes) (epa : ℕ) : ℕ → Bytes → ℕ → ℕ → Option Bytes
  | 0, _, _, _ => none
  | n + 1, m, pa, offset =>
    if pa < epa then
      readLoop disk epa n (readsect disk m pa offset) ((pa + SECTSIZE) % UINT) ((offset + 1) % UINT)
    else some m

/-- Read `count` bytes at `offset` from the kernel into physical address `pa`. -/
def readseg (disk : Bytes) (n : ℕ) (m : Bytes) (pa count offset : ℕ) : Option Bytes :=
  readLoop disk ((pa + count) % UINT) n m ((pa + UINT - offset % SECTSIZE) % UINT)
    (offset / SECTSIZE + 1)

def stosb (m : Bytes) (addr : ℕ) (data : BitVec 8) (cnt : ℕ) : Bytes := fun a =>
  if (a + UINT - addr) % UINT < cnt then data else m a

/-- The fields of `struct proghdr` that the loader uses. -/
structure Proghdr where
  off : ℕ
  paddr : ℕ
  filesz : ℕ
  memsz : ℕ

def proghdr (m : Bytes) (ph : ℕ) : Proghdr :=
  ⟨getLE m (ph + 4) 4, getLE m (ph + 12) 4, getLE m (ph + 16) 4, getLE m (ph + 20) 4⟩

/-- The body of the loop over the program headers. -/
def loadSegment (disk : Bytes) (n : ℕ) (m : Bytes) (ph : Proghdr) : Option Bytes := do
  let m ← readseg disk n m ph.paddr ph.filesz ph.off
  if ph.filesz < ph.memsz then
    return stosb m ((ph.paddr + ph.filesz) % UINT) 0 (ph.memsz - ph.filesz)
  return m

/-- The loop over the program headers, for at most `k` rounds. -/
def loadLoop (disk : Bytes) (n eph : ℕ) : ℕ → Bytes → ℕ → Option Bytes
  | 0, _, _ => none
  | k + 1, m, ph =>
    if ph < eph then do
      let m ← loadSegment disk n m (proghdr m ph)
      loadLoop disk n eph k m ((ph + 32) % UINT)
    else some m

/-- The scratch space. -/
def elf : ℕ := 0x10000

/-- The bytes of the kernel image. -/
def image (disk : Bytes) : Bytes := fun o => disk (SECTSIZE + o)

variable {disk m m' : Bytes} {pa offset k n a : ℕ}

theorem readsect_eq (hpa : pa + SECTSIZE ≤ UINT) (ho : offset < 2 ^ 28) (ha : a < UINT) :
    readsect disk m pa offset a =
      if pa ≤ a ∧ a < pa + SECTSIZE then disk (offset * SECTSIZE + (a - pa)) else m a := by
  unfold readsect
  unfold SECTSIZE UINT at *
  rw [Nat.mod_eq_of_lt ho]
  split_ifs with h₁ h₂ h₂
  · congr 2
    omega
  · omega
  · omega
  · rfl

/-- `k` sectors are read. -/
theorem readLoop_eq {epa : ℕ} (hk : ∀ i < k, pa + i * SECTSIZE < epa) (hend : epa ≤ pa + k * SECTSIZE)
    (hlt : pa + k * SECTSIZE < UINT) (ho : offset + k < 2 ^ 28) (hn : k < n) :
    ∃ m', readLoop disk epa n m pa offset = some m' ∧ ∀ a < UINT, m' a =
      if pa ≤ a ∧ a < pa + k * SECTSIZE then disk (offset * SECTSIZE + (a - pa)) else m a := by
  induction k generalizing n m pa offset with
  | zero =>
    obtain ⟨n, rfl⟩ : ∃ n', n = n' + 1 := ⟨n - 1, by omega⟩
    refine ⟨m, if_neg (by omega), fun a _ => (if_neg (by omega)).symm⟩
  | succ k ih =>
    obtain ⟨n, rfl⟩ : ∃ n', n = n' + 1 := ⟨n - 1, by omega⟩
    have hsucc : (k + 1) * SECTSIZE = k * SECTSIZE + SECTSIZE := Nat.succ_mul k SECTSIZE
    have hUINT := uint_eq
    have hnext : (pa + SECTSIZE) % UINT = pa + SECTSIZE := Nat.mod_eq_of_lt (by omega)
    have hoff : (offset + 1) % UINT = offset + 1 := Nat.mod_eq_of_lt (by omega)
    have hfirst : pa < epa := by simpa using hk 0 (by omega)
    have hstep : readLoop disk epa (n + 1) m pa offset = readLoop disk epa n
        (readsect disk m pa offset) (pa + SECTSIZE) (offset + 1) := by
      rw [readLoop, if_pos hfirst, hnext, hoff]
    rw [hstep]
    have hrest : ∀ i < k, pa + SECTSIZE + i * SECTSIZE < epa := fun i hi => by
      have := hk (i + 1) (by omega)
      rw [Nat.succ_mul] at this
      omega
    obtain ⟨m', hm', heq⟩ := @ih (readsect disk m pa offset) (pa + SECTSIZE) (offset + 1) n
      hrest (by omega) (by omega) (by omega) (by omega)
    refine ⟨m', hm', fun a ha => ?_⟩
    rw [heq a ha, readsect_eq (by omega) (by omega) ha, Nat.succ_mul offset]
    split_ifs with h₁ h₂ h₃ h₃ h₂
    · apply congrArg disk
      omega
    · omega
    · rfl
    · omega
    · omega
    · rfl

/-! ## Segments -/

/-- Where the first sector of a segment goes. -/
def Proghdr.lo (ph : Proghdr) : ℕ := ph.paddr - ph.off % SECTSIZE

/-- How many sectors are read. -/
def Proghdr.sectors (ph : Proghdr) : ℕ :=
  (ph.off % SECTSIZE + ph.filesz + (SECTSIZE - 1)) / SECTSIZE

/-- Where the last sector ends. -/
def Proghdr.hi (ph : Proghdr) : ℕ := ph.lo + ph.sectors * SECTSIZE

/-- The segment and its sectors lie in memory, without wrapping around. -/
structure Proghdr.InMemory (ph : Proghdr) : Prop where
  off : ph.off < UINT
  start : ph.off % SECTSIZE ≤ ph.paddr
  sectors : ph.hi < UINT
  memsz : ph.paddr + ph.memsz ≤ UINT

/-- The segment is in memory as the image has it. -/
def Holds (disk m : Bytes) (ph : Proghdr) : Prop :=
  (∀ i < ph.filesz, m (ph.paddr + i) = image disk (ph.off + i)) ∧
  ∀ i, ph.filesz ≤ i → i < ph.memsz → m (ph.paddr + i) = 0

variable {ph : Proghdr}

theorem Proghdr.InMemory.readseg (h : ph.InMemory) (hn : ph.sectors < n) (disk m : Bytes) :
    ∃ m', readseg disk n m ph.paddr ph.filesz ph.off = some m' ∧ ∀ a < UINT, m' a =
      if ph.lo ≤ a ∧ a < ph.hi then image disk (ph.off - ph.off % SECTSIZE + (a - ph.lo)) else m a := by
  obtain ⟨hoff, hstart, hhi, -⟩ := h
  have hlo : (ph.paddr + UINT - ph.off % SECTSIZE) % UINT = ph.lo := by
    unfold Proghdr.hi Proghdr.lo UINT at *
    omega
  have hepa : (ph.paddr + ph.filesz) % UINT = ph.paddr + ph.filesz := by
    refine Nat.mod_eq_of_lt ?_
    unfold Proghdr.hi Proghdr.lo Proghdr.sectors SECTSIZE at *
    omega
  have hUINT := uint_eq
  have hloop := @readLoop_eq disk m ph.lo (ph.off / SECTSIZE + 1) ph.sectors n (ph.paddr + ph.filesz)
    (fun i hi => by unfold Proghdr.lo Proghdr.sectors SECTSIZE at *; omega)
    (by unfold Proghdr.lo Proghdr.sectors SECTSIZE at *; omega) hhi
    (by unfold Proghdr.hi Proghdr.lo Proghdr.sectors SECTSIZE at *; omega) hn
  obtain ⟨m', hm', heq⟩ := hloop
  refine ⟨m', ?_, fun a ha => ?_⟩
  · unfold Bootmain.readseg
    rw [hlo, hepa]
    exact hm'
  · have hsect : (ph.off / SECTSIZE + 1) * SECTSIZE = SECTSIZE + (ph.off - ph.off % SECTSIZE) := by
      have := Nat.div_add_mod ph.off SECTSIZE
      rw [Nat.succ_mul, Nat.mul_comm]
      omega
    rw [heq a ha, hsect]
    unfold image Proghdr.hi
    split_ifs with h₁
    · rw [Nat.add_assoc]
    · rfl

/-- The body of the loop loads its segment and changes nothing but its sectors and its end. -/
theorem Proghdr.InMemory.loadSegment (h : ph.InMemory) (hn : ph.sectors < n) (disk m : Bytes) :
    ∃ m', loadSegment disk n m ph = some m' ∧ Holds disk m' ph ∧
      ∀ a < UINT, a < ph.lo ∨ ph.hi ≤ a → a < ph.paddr ∨ ph.paddr + ph.memsz ≤ a → m' a = m a := by
  obtain ⟨m₁, hm₁, heq⟩ := h.readseg hn disk m
  obtain ⟨-, hstart, hhi, hmem⟩ := h
  have hUINT := uint_eq
  have hread : ∀ i < ph.filesz, m₁ (ph.paddr + i) = image disk (ph.off + i) := by
    intro i hi
    have hle := Nat.mod_le ph.off SECTSIZE
    rw [heq _ (by unfold Proghdr.hi Proghdr.lo Proghdr.sectors SECTSIZE at *; omega), if_pos
      (by unfold Proghdr.hi Proghdr.lo Proghdr.sectors SECTSIZE at *; omega)]
    congr 1
    unfold Proghdr.lo
    omega
  unfold Bootmain.loadSegment
  rw [hm₁]
  by_cases hlt : ph.filesz < ph.memsz
  · have hstosb : ∀ a < UINT, stosb m₁ ((ph.paddr + ph.filesz) % UINT) 0 (ph.memsz - ph.filesz) a =
        if ph.paddr + ph.filesz ≤ a ∧ a < ph.paddr + ph.memsz then 0 else m₁ a := by
      intro a ha
      have hmod : (ph.paddr + ph.filesz) % UINT = ph.paddr + ph.filesz := Nat.mod_eq_of_lt (by omega)
      unfold stosb
      rw [hmod]
      unfold UINT at *
      split_ifs <;> first | rfl | omega
    refine ⟨_, if_pos hlt, ⟨fun i hi => ?_, fun i hi hi' => ?_⟩, fun a ha hout hout' => ?_⟩
    · rw [hstosb _ (by omega), if_neg (by omega), hread i hi]
    · rw [hstosb _ (by omega), if_pos (by omega)]
    · rw [hstosb a ha, if_neg (by omega), heq a ha, if_neg (by omega)]
  · refine ⟨m₁, if_neg hlt, ⟨hread, fun i hi hi' => by omega⟩, fun a ha hout _ => ?_⟩
    rw [heq a ha, if_neg (by omega)]

/-! ## The kernel -/

def phoff (disk : Bytes) : ℕ := getLE (image disk) 28 4

def phnum (disk : Bytes) : ℕ := getLE (image disk) 44 2

/-- Program header `k` of the image. -/
def seg (disk : Bytes) (k : ℕ) : Proghdr := proghdr (image disk) (phoff disk + 32 * k)

/-- An image whose headers lie in its first page, with segments in ascending order that have no byte in
common with each other, with the scratch space and with the boot code. -/
structure Kernel (disk : Bytes) : Prop where
  magic : getLE (image disk) 0 4 = ELF_MAGIC
  headers : phoff disk + 32 * phnum disk ≤ 4096
  ascending : ∀ j < phnum disk, ∀ i < j, (seg disk i).paddr + (seg disk i).memsz ≤ (seg disk j).paddr
  memory : ∀ j < phnum disk, (seg disk j).paddr + (seg disk j).memsz ≤ 2 ^ 32
  scratch : ∀ j < phnum disk, (seg disk j).paddr + (seg disk j).memsz ≤ elf ∨
    elf + 4096 ≤ (seg disk j).paddr
  code : ∀ j < phnum disk, (seg disk j).paddr + (seg disk j).memsz ≤ 0x7c00 ∨
    0x7e00 ≤ (seg disk j).paddr

/-- The sectors of segment `j` lie in memory, and they reach neither back into a segment before it
nor into the scratch space or the boot code. -/
structure Clear (disk : Bytes) (j : ℕ) : Prop where
  start : (seg disk j).off % SECTSIZE ≤ (seg disk j).paddr
  memory : (seg disk j).hi < 2 ^ 32
  before : ∀ i < j, (seg disk i).paddr + max (seg disk i).filesz (seg disk i).memsz ≤ (seg disk j).lo
  scratch : (seg disk j).hi ≤ elf ∨ elf + 4096 ≤ (seg disk j).lo
  code : (seg disk j).hi ≤ 0x7c00 ∨ 0x7e00 ≤ (seg disk j).lo

/-- The headers are in the scratch space, and the segments before `j` are in memory. -/
structure Loaded (disk : Bytes) (j : ℕ) (m : Bytes) : Prop where
  page : ∀ o < 4096, m (elf + o) = image disk o
  holds : ∀ i < j, Holds disk m (seg disk i)

theorem getLE_shift {b off w : ℕ} (h : ∀ i, off ≤ i → i < off + w → m (b + i) = m' i) :
    getLE m (b + off) w = getLE m' off w := by
  induction w generalizing off with
  | zero => rfl
  | succ w ih =>
    rw [getLE, getLE, h off (Nat.le_refl _) (by omega), Nat.add_assoc,
      ih fun i hi hi' => h i (by omega) (by omega)]

variable {j : ℕ}

theorem Loaded.getLE (h : Loaded disk j m) {off w : ℕ} (hle : off + w ≤ 4096) :
    Lib.getLE m (elf + off) w = Lib.getLE (image disk) off w :=
  getLE_shift fun i _ hi => h.page i (by omega)

theorem Loaded.proghdr (h : Loaded disk j m) (hk : Kernel disk) (hj : j < phnum disk) :
    proghdr m (elf + phoff disk + 32 * j) = seg disk j := by
  have := hk.headers
  unfold seg Bootmain.proghdr
  simp only [Nat.add_assoc]
  rw [h.getLE (by omega), h.getLE (by omega), h.getLE (by omega), h.getLE (by omega)]

theorem Kernel.inMemory (hk : Kernel disk) (hj : j < phnum disk) (hc : Clear disk j) :
    (seg disk j).InMemory := by
  refine ⟨?_, hc.start, ?_, ?_⟩
  · exact Nat.lt_of_lt_of_le (getLE_lt _ _ _) (by rw [uint_eq]; norm_num)
  · rw [uint_eq]
    exact hc.memory
  · rw [uint_eq]
    exact hk.memory j hj

theorem sectors_lt {ph : Proghdr} (hi : ph.filesz < 2 ^ 32) : ph.sectors < 2 ^ 24 := by
  unfold Proghdr.sectors SECTSIZE
  omega

/-- One round of the loop over the program headers. -/
theorem Loaded.loadSegment (h : Loaded disk j m) (hk : Kernel disk) (hj : j < phnum disk)
    (hc : Clear disk j) (hn : 2 ^ 24 ≤ n) :
    ∃ m', loadSegment disk n m (seg disk j) = some m' ∧ Loaded disk (j + 1) m' := by
  have hsect := @sectors_lt (seg disk j) (Nat.lt_of_lt_of_le (getLE_lt _ _ _) (by norm_num))
  obtain ⟨m', hm', hself, hframe⟩ :=
    (hk.inMemory hj hc).loadSegment (Nat.lt_of_lt_of_le hsect hn) disk m
  have hUINT := uint_eq
  have hmem := hc.memory
  have hlo : (seg disk j).lo ≤ (seg disk j).hi := Nat.le_add_right _ _
  have hlo' : (seg disk j).lo ≤ (seg disk j).paddr := Nat.sub_le _ _
  refine ⟨m', hm', fun o ho => ?_, fun i hi => ?_⟩
  · have hs := hk.scratch j hj
    have hs' := hc.scratch
    unfold elf at hs hs'
    rw [← h.page o ho]
    apply hframe <;> unfold elf <;> omega
  · rcases Nat.lt_or_eq_of_le (Nat.le_of_lt_succ hi) with hlt | rfl
    · obtain ⟨hfile, hzero⟩ := h.holds i hlt
      have hb := hc.before i hlt
      refine ⟨fun x hx => ?_, fun x hx hx' => ?_⟩
      · rw [hframe _ (by omega) (by omega) (by omega), hfile x hx]
      · rw [hframe _ (by omega) (by omega) (by omega), hzero x hx hx']
    · exact hself

theorem Loaded.loadLoop (h : Loaded disk j m) (hk : Kernel disk)
    (hc : ∀ j < phnum disk, Clear disk j) (hn : 2 ^ 24 ≤ n) {k : ℕ} (hj : j + k = phnum disk)
    {r : ℕ} (hr : k < r) :
    ∃ m', loadLoop disk n (elf + phoff disk + 32 * phnum disk) r m (elf + phoff disk + 32 * j) =
      some m' ∧ Loaded disk (phnum disk) m' := by
  induction k generalizing j m r with
  | zero =>
    obtain ⟨r, rfl⟩ : ∃ r', r = r' + 1 := ⟨r - 1, by omega⟩
    have hj' : j = phnum disk := hj
    subst hj'
    exact ⟨m, if_neg (Nat.lt_irrefl _), h⟩
  | succ k ih =>
    obtain ⟨r, rfl⟩ : ∃ r', r = r' + 1 := ⟨r - 1, by omega⟩
    obtain ⟨m₁, hm₁, hload⟩ := h.loadSegment hk (by omega) (hc j (by omega)) hn
    obtain ⟨m', hm', hall⟩ := ih hload (by omega) (r := r) (by omega)
    refine ⟨m', ?_, hall⟩
    have hnext : (elf + phoff disk + 32 * j + 32) % UINT = elf + phoff disk + 32 * (j + 1) := by
      have := hk.headers
      rw [uint_eq]
      unfold elf
      omega
    rw [Bootmain.loadLoop, if_pos (by omega), h.proghdr hk (by omega), hm₁, hnext]
    exact hm'

end DuckoUnix.Bootmain
