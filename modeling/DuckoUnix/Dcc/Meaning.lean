import Mathlib.Data.List.GetD
import DuckoUnix.Dcc.Program
import DuckoUnix.Dcc.Machine
import DuckoUnix.Vm.Space

/-!
# What compiled programs do

A program of calls `reboot(NUM)` and `exit()` is meant to make these calls in turn. `dcc_code` says
what dcc writes for it, `enter_spec` what state `exec` starts it in, and `calls_received` what the
kernel gets to see: `argint` skips the word on top of the stack, which is a return address when a
call goes through the stubs of `usys.S`. dcc pushes no such word, so `sys_reboot` gets what lies
below its argument: first the fake return address of `exec`, then the argument of the call before.
-/

namespace DuckoUnix.Dcc

open Lib Exec Vm

/-! ## Source programs -/

/-- A statement of a source program; a number is given by its digits. -/
inductive Stmt
  | reboot (digits : Str)
  | exit
  deriving DecidableEq

namespace Stmt

def lexemes : Stmt → List Lexeme
  | reboot ds => [.name rebootName, .lparen, .num ds, .rparen, .semicolon]
  | exit => [.name exitName, .lparen, .rparen, .semicolon]

def code : Stmt → Str
  | reboot ds => rebootCode (value ds)
  | exit => callCode 2

end Stmt

def number (digits : Str) : ℕ := digits.foldl (fun n c => n * 10 + (c.toNat - (chr '0').toNat)) 0

/-- The calls that a program stands for, up to the first `exit`. -/
def meaning : List Stmt → List Call
  | [] => [.exit]
  | .exit :: _ => [.exit]
  | .reboot ds :: stmts => .reboot (some (number ds)) :: meaning stmts

/-- The text `input` is the program of the statements `stmts`. -/
def Source (input : Str) (stmts : List Stmt) : Prop :=
  ∃ m rest, IsMain m ∧ Reads input (headerOf m ++ stmts.flatMap Stmt.lexemes ++ [.rbrace]) rest

/-! ## The compiled program -/

section Compiled

variable {stmts : List Stmt} {input out : Str} {v : BitVec 32} {n : ℕ}

theorem exitName_ne : exitName ≠ rebootName := by decide

namespace Stmt

def clause : Stmt → Clause
  | reboot ds => .reboot (.num ds)
  | exit => .call exitName exitName_ne

theorem clause_lexemes (st : Stmt) : st.clause.lexemes = st.lexemes := by
  cases st <;> rfl

theorem clause_code (st : Stmt) : st.clause.code v = st.code := by
  cases st <;> rfl

end Stmt

theorem front_clauses (m : Lexeme) :
    front m (stmts.map Stmt.clause) = headerOf m ++ stmts.flatMap Stmt.lexemes := by
  simp only [front, List.flatMap_map, Stmt.clause_lexemes]

theorem codeFrom_clauses : codeFrom v (stmts.map Stmt.clause) = stmts.flatMap Stmt.code := by
  induction stmts generalizing v with
  | nil => rfl
  | cons st stmts ih =>
    rw [List.map_cons, List.flatMap_cons, codeFrom, st.clause_code, ih]

/-- What dcc writes for a program that it accepts. -/
theorem dcc_code (hsrc : Source input stmts) (hdcc : dcc n true input = some (.ok out)) :
    ∃ code, code = stmts.flatMap Stmt.code ++ callCode 2 ∧ code.length ≤ 512 ∧
      out = elfHeader code.length ++ code := by
  obtain ⟨m, rest, hm, hread⟩ := hsrc
  rw [← front_clauses] at hread
  rcases reaches true hm hread with ⟨⟨k, hk⟩, -⟩ | ⟨s₀, s, hs₀, hcomes, hat, -⟩
  · cases dcc_det hdcc hk
  · obtain ⟨k, hk⟩ := dcc_of_comes hs₀ hcomes hat.current.token
    obtain ⟨-, haccept, -, hout⟩ := finish_ok hat (dcc_det hdcc hk).symm
    exact ⟨_, congrArg (fun code => code ++ callCode 2) codeFrom_clauses, haccept.room, hout⟩

end Compiled

/-! ## The state that exec sets up -/

section Entry

variable {u u' : User} {argv : List Exec.Str} {us : List ℕ}

def fileOf (out : Str) : File := ⟨out.length, fun i => out.getD i 0⟩

/-- The bytes `bs` are the code that comes next. -/
structure Runs (u : User) (bs : Str) : Prop where
  holds : ∀ i < bs.length, u.mem (u.eip + i) = bs.getD i 0
  low : u.eip + bs.length ≤ u.sz - 2 * PGSIZE

/-- The stack pointer is in the stack page, with a word above it. -/
structure Stacked (u : User) : Prop where
  lo : u.sz - PGSIZE ≤ u.esp
  hi : u.esp + 4 ≤ u.sz
  pages : 2 * PGSIZE ≤ u.sz
  lt : u.sz < KERNBASE

def top (u : User) : ℤ := (BitVec.ofNat 32 (getLE u.mem u.esp 4)).toInt

theorem covers_stack {p n : ℕ} (h : u.Covers p n) (hn : 0 < n) (hend : u.sz - 2 * PGSIZE < p + n) :
    u.sz - PGSIZE ≤ p ∧ p + n ≤ u.sz := by
  have hlast := h (n - 1) (by omega)
  unfold User.Reaches at hlast
  refine ⟨?_, by omega⟩
  by_contra hlow
  -- some byte would be in the page below the stack
  have hguard := h (u.sz - PGSIZE - 1 - p) (by omega)
  unfold User.Reaches at hguard
  have : 0 < PGSIZE := by decide
  omega

theorem copyout_eq_some {va : ℕ} {buf : Str} (h : u.copyout va buf = some u') :
    u.Covers va buf.length ∧ u' = { u with mem := blit u.mem va buf } := by
  unfold User.copyout at h
  split at h
  · exact ⟨‹_›, (Option.some.inj h).symm⟩
  · cases h

theorem blit_of_lt {pg : Bytes} {off i : ℕ} {bs : Str} (h : i < off) : blit pg off bs i = pg i :=
  if_neg fun hi => by omega

/-- The arguments go to the stack page; the pages below are as they were. -/
structure Pushed (u : User) (u' : User) : Prop where
  sz : u'.sz = u.sz
  eip : u'.eip = u.eip
  lo : u.sz - PGSIZE ≤ u'.esp
  hi : u'.esp ≤ u.sz
  mem : ∀ a < u.sz - PGSIZE, u'.mem a = u.mem a

theorem nextSp_end {sp : ℕ} (hsp : sp < UINT) (arg : Exec.Str) :
    sp ≤ nextSp sp arg + (arg.length + 1) + 3 := by
  unfold UINT at hsp
  unfold nextSp UINT
  omega

theorem pushStrings_spec (hlo : u.sz - PGSIZE ≤ u.esp) (hhi : u.esp ≤ u.sz)
    (hsz : 2 * PGSIZE ≤ u.sz) (hlt : u.sz < KERNBASE) (hus : us.length ≤ MAXARG) {us' : List ℕ}
    (h : pushStrings u us argv = some (u', us')) : Pushed u u' ∧ us'.length ≤ MAXARG := by
  induction argv generalizing u us with
  | nil =>
    cases h
    exact ⟨⟨rfl, rfl, hlo, hhi, fun _ _ => rfl⟩, hus⟩
  | cons arg argv ih =>
    unfold pushStrings at h
    split at h
    · cases h
    split at h
    · cases h
    rename_i hmax u₁ hcopy
    obtain ⟨hcov, hu₁⟩ := copyout_eq_some hcopy
    rw [List.length_append, List.length_singleton] at hcov
    have hsz₁ : u₁.sz = u.sz := by rw [hu₁]
    have hesp₁ : u₁.esp = nextSp u.esp arg := by rw [hu₁]
    have hpage : PGSIZE = 4096 := rfl
    have hend := nextSp_end (Nat.lt_trans (Nat.lt_of_le_of_lt hhi hlt) (by decide)) arg
    obtain ⟨hlo₁, hhi₁⟩ := covers_stack hcov (Nat.succ_pos _)
      (show u.sz - 2 * PGSIZE < _ by omega)
    have hlo' : u₁.sz - PGSIZE ≤ u₁.esp := by rw [hsz₁, hesp₁]; exact hlo₁
    have hhi' : u₁.esp ≤ u₁.sz := by rw [hsz₁, hesp₁]; exact Nat.le_of_add_right_le hhi₁
    have hus' : (us ++ [u₁.esp]).length ≤ MAXARG := by
      rw [List.length_append, List.length_singleton]
      omega
    obtain ⟨hp, hlen⟩ := ih hlo' hhi' (by rw [hsz₁]; exact hsz) (by rw [hsz₁]; exact hlt) hus' h
    refine ⟨⟨hp.sz.trans hsz₁, hp.eip.trans (by rw [hu₁]), ?_, ?_, fun a ha => ?_⟩, hlen⟩
    · rw [← hsz₁]
      exact hp.lo
    · rw [← hsz₁]
      exact hp.hi
    · rw [hp.mem a (by rw [hsz₁]; exact ha), hu₁]
      exact blit_of_lt (Nat.lt_of_lt_of_le ha hlo₁)

/-- The words of `ustack` go below the strings, with the fake return address on top. -/
theorem pushFrame_spec {argvp : ℕ} (hlo : u.sz - PGSIZE ≤ u.esp) (hhi : u.esp ≤ u.sz)
    (hsz : 2 * PGSIZE ≤ u.sz) (hlt : u.sz < KERNBASE) (hus : us.length ≤ MAXARG)
    (h : { u with esp := (u.esp + UINT - (3 + us.length + 1) * 4) % UINT }.copyout
      ((u.esp + UINT - (3 + us.length + 1) * 4) % UINT)
      (bytesOf ([0xffffffff, us.length, argvp] ++ us ++ [0])) = some u') :
    Pushed u u' ∧ Stacked u' ∧ top u' = -1 := by
  have hpage : PGSIZE = 4096 := rfl
  have hlen : (bytesOf ([0xffffffff, us.length, argvp] ++ us ++ [0])).length =
      (3 + us.length + 1) * 4 := by
    rw [bytesOf_length]
    simp only [List.length_append, List.length_cons, List.length_nil]
    omega
  obtain ⟨hcov, hu⟩ := copyout_eq_some h
  have hsp : (u.esp + UINT - (3 + us.length + 1) * 4) % UINT = u.esp - (3 + us.length + 1) * 4 := by
    unfold MAXARG at hus
    unfold KERNBASE at hlt
    unfold UINT
    omega
  rw [hsp] at hcov hu
  rw [hlen] at hcov
  obtain ⟨hlo', hhi'⟩ := covers_stack hcov (by omega) (show u.sz - 2 * PGSIZE < _ by omega)
  have hesp : u'.esp = u.esp - (3 + us.length + 1) * 4 := by rw [hu]
  have hsz' : u'.sz = u.sz := by rw [hu]
  have hword : ∀ i < 4, u'.mem (u'.esp + i) = 255 := by
    intro i hi
    rw [hesp, hu]
    show blit _ _ _ _ = _
    unfold blit
    rw [if_pos ⟨Nat.le_add_right _ _, by omega⟩, Nat.add_sub_cancel_left]
    match i, hi with
    | 0, _ => rfl
    | 1, _ => rfl
    | 2, _ => rfl
    | 3, _ => rfl
  refine ⟨⟨hsz', by rw [hu], ?_, ?_, fun a ha => ?_⟩, ⟨?_, ?_, ?_, ?_⟩, ?_⟩
  · rw [hesp]
    exact hlo'
  · rw [hesp]
    exact Nat.le_trans (Nat.sub_le _ _) hhi
  · rw [hu]
    exact blit_of_lt (Nat.lt_of_lt_of_le ha hlo')
  · rw [hsz', hesp]
    exact hlo'
  · rw [hsz', hesp]
    exact Nat.le_trans (by omega) hhi'
  · rw [hsz']
    exact hsz
  · rw [hsz']
    exact hlt
  · unfold top
    simp only [getLE]
    have h0 := hword 0 (by decide)
    rw [Nat.add_zero] at h0
    rw [h0, hword 1 (by decide), hword 2 (by decide), hword 3 (by decide)]
    decide

/-- The file begins with the bytes `out`. -/
structure Begins (f : File) (out : Str) : Prop where
  size : out.length ≤ f.size
  data : ∀ i < out.length, f.data i = out.getD i 0

theorem begins_fileOf (out : Str) : Begins (fileOf out) out := ⟨Nat.le_refl _, fun _ _ => rfl⟩

theorem compiled_length (code : Str) : (elfHeader code.length ++ code).length = 84 + code.length := by
  rw [List.length_append]
  rfl

theorem Begins.readi {f : File} {code : Str} {off n : ℕ} (h : Begins f (elfHeader code.length ++ code))
    (hn : off + n ≤ 84 + code.length) (hlt : off + n < UINT) : Exec.readi f off n = some n := by
  have hsize := h.size
  rw [compiled_length] at hsize
  unfold Exec.readi
  rw [Nat.mod_eq_of_lt hlt, if_neg (by omega), if_neg (by omega)]

theorem Begins.readElfhdr {f : File} {code : Str} (h : Begins f (elfHeader code.length ++ code)) :
    readElfhdr f = some ⟨ELF_MAGIC, 84, 52, 1⟩ := by
  have hread : Exec.readi f 0 52 = some 52 := h.readi (by omega) (by decide)
  have hdata : ∀ off w, off + w ≤ 52 → getLE f.data off w =
      getLE (fun i => elfhdr.getD i 0) off w := fun off w hw => getLE_congr fun i _ hi => by
    rw [h.data i (by rw [compiled_length]; omega)]
    show (elfhdr ++ proghdr code.length ++ code).getD i 0 = _
    rw [List.append_assoc, List.getD_append _ _ _ _ (show i < 52 by omega)]
  have hmagic : getLE (fun i => elfhdr.getD i 0) 0 4 = ELF_MAGIC := by decide +kernel
  have hentry : getLE (fun i => elfhdr.getD i 0) 24 4 = 84 := by decide +kernel
  have hphoff : getLE (fun i => elfhdr.getD i 0) 28 4 = 52 := by decide +kernel
  have hphnum : getLE (fun i => elfhdr.getD i 0) 44 2 = 1 := by decide +kernel
  unfold Exec.readElfhdr
  rw [if_pos hread, hdata 0 4 (by decide), hdata 24 4 (by decide), hdata 28 4 (by decide),
    hdata 44 2 (by decide), hmagic, hentry, hphoff, hphnum]

theorem Begins.readProghdr {f : File} {code : Str} (h : Begins f (elfHeader code.length ++ code))
    (hlen : code.length ≤ 512) :
    readProghdr f 52 = some ⟨ELF_PROG_LOAD, 0, 0, 84 + code.length, 84 + code.length⟩ := by
  have hread : Exec.readi f 52 32 = some 32 := h.readi (by omega) (by decide)
  have hbyte : ∀ i < 32, f.data (52 + i) = (proghdr code.length).getD i 0 := by
    intro i hi
    rw [h.data (52 + i) (by rw [compiled_length]; omega)]
    show (elfhdr ++ proghdr code.length ++ code).getD (52 + i) 0 = _
    rw [List.append_assoc, List.getD_append_right _ _ _ _ (Nat.le_add_right 52 i)]
    show (proghdr code.length ++ code).getD (52 + i - 52) 0 = _
    rw [Nat.add_sub_cancel_left, List.getD_append _ _ _ _ hi]
  let p : ℕ → ℕ := fun i => ((proghdr code.length).getD i 0).toNat
  have hword : ∀ i ≤ 28, getLE f.data (52 + i) 4 =
      p i + 256 * (p (i + 1) + 256 * (p (i + 2) + 256 * (p (i + 3) + 256 * 0))) := by
    intro i hi
    simp only [getLE, Nat.add_assoc]
    rw [hbyte i (by omega), hbyte (i + 1) (by omega), hbyte (i + 2) (by omega),
      hbyte (i + 3) (by omega)]
  have hsize : (BitVec.ofNat 8 (84 + code.length)).toNat +
      256 * ((BitVec.ofNat 8 ((84 + code.length) / 256)).toNat + 256 * (0 + 256 * (0 + 256 * 0))) =
        84 + code.length := by
    rw [BitVec.toNat_ofNat, BitVec.toNat_ofNat]
    omega
  unfold Exec.readProghdr
  rw [if_pos hread, hword 4 (by decide), hword 8 (by decide), hword 16 (by decide),
    hword 20 (by decide), (hword 0 (by decide) : getLE _ 52 4 = _)]
  show some (Proghdr.mk _ _ _ _ _) = some (Proghdr.mk _ _ _ _ _)
  congr 2

/-- What `exec` makes of the file of a compiled program: the code is at `eip`, and the fake return
address is on top of the stack. -/
theorem enter_spec {code : Str} (hlen : code.length ≤ 512)
    (h : enter (fileOf (elfHeader code.length ++ code)) argv = some u) :
    Runs u code ∧ Stacked u ∧ top u = -1 := by
  have hpage : PGSIZE = 4096 := rfl
  have hup : PGROUNDUP (84 + code.length) = PGSIZE := by
    rw [PGROUNDUP_eq (by unfold KERNBASE; omega)]
    unfold pgs
    omega
  have hbegins := begins_fileOf (elfHeader code.length ++ code)
  have hload : loadAll (fileOf (elfHeader code.length ++ code)) 1 52 0 (fun _ => 0) =
      some (84 + code.length, fun a => if a < 84 + code.length then
        (elfHeader code.length ++ code).getD a 0 else 0) := by
    have hread : readi (fileOf (elfHeader code.length ++ code)) 0 (84 + code.length) =
        some (84 + code.length) := hbegins.readi (by omega) (by unfold UINT; omega)
    unfold loadAll
    rw [hbegins.readProghdr hlen]
    dsimp only
    rw [if_neg (not_not.mpr rfl), if_neg (Nat.lt_irrefl _), if_neg (Nat.not_lt_zero _),
      if_neg (by unfold KERNBASE; omega), if_neg (by decide), if_pos hread]
    simp only [loadAll, Nat.zero_add, Nat.zero_le, true_and, Nat.sub_zero, Nat.zero_max]
    rfl
  unfold enter at h
  rw [hbegins.readElfhdr] at h
  dsimp only at h
  rw [if_neg (not_not.mpr rfl), hload] at h
  dsimp only at h
  rw [hup, if_neg (by decide)] at h
  split at h
  · cases h
  rename_i r u₁ us hpush
  have hkern : PGSIZE + 2 * PGSIZE < KERNBASE := by decide
  obtain ⟨hp, hargc⟩ := pushStrings_spec (Nat.sub_le _ _) (Nat.le_refl _)
    (Nat.le_add_left _ _) hkern (Nat.zero_le _) hpush
  have hsz : u₁.sz = PGSIZE + 2 * PGSIZE := hp.sz
  obtain ⟨hp', hst, htop⟩ := pushFrame_spec (by rw [hsz]; exact hp.lo) (by rw [hsz]; exact hp.hi)
    (by rw [hsz]; exact Nat.le_add_left _ _) (by rw [hsz]; exact hkern) hargc h
  have heip : u.eip = 84 := hp'.eip.trans hp.eip
  have hsz' : u.sz = PGSIZE + 2 * PGSIZE := hp'.sz.trans hsz
  refine ⟨⟨fun i hi => ?_, ?_⟩, hst, htop⟩
  · have hlow : 84 + i < PGSIZE + 2 * PGSIZE - PGSIZE := by omega
    rw [heip, hp'.mem _ (by rw [hsz]; exact hlow), hp.mem _ hlow]
    show (if _ then _ else _) = _
    rw [if_pos (by omega), List.getD_append_right _ _ _ _ (Nat.le_add_right 84 i)]
    exact congrArg (code.getD · 0) (Nat.add_sub_cancel_left 84 i)
  · rw [heip, hsz']
    omega

end Entry

/-! ## Running the code -/

section Run

variable {u u' : User} {bs rest : Str} {num arg : BitVec 32} {n : ℕ}

theorem Runs.drop (h : Runs u (bs ++ rest)) {u' : User} (hmem : ∀ a < u.sz - 2 * PGSIZE, u'.mem a = u.mem a)
    (hsz : u'.sz = u.sz) (heip : u'.eip = u.eip + bs.length) : Runs u' rest where
  holds i hi := by
    have hlow := h.low
    have hall := h.holds (bs.length + i) (by rw [List.length_append]; omega)
    rw [List.length_append] at hlow
    rw [heip, Nat.add_assoc, hmem _ (by omega), hall, List.getD_append_right _ _ _ _ (Nat.le_add_right _ _),
      Nat.add_sub_cancel_left]
  low := by
    have hlow := h.low
    rw [List.length_append] at hlow
    rw [heip, hsz]
    omega

theorem Runs.covers (h : Runs u bs) (hn : n ≤ bs.length) : u.Covers u.eip n := by
  intro i hi
  have hlow := h.low
  have : 0 < PGSIZE := by decide
  unfold User.Reaches
  omega

theorem callCode_length_le {num : BitVec 32} {rest : Str} : 7 ≤ (callCode num ++ rest).length := by
  rw [List.length_append]
  exact Nat.le_add_right 7 _

theorem getLE_callCode (h : Runs u (callCode num ++ rest)) :
    getLE u.mem (u.eip + 1) 4 = num.toNat := by
  have hlen : 7 ≤ (callCode num ++ rest).length := callCode_length_le
  have h₁ : u.mem (u.eip + 1) = num.setWidth 8 := h.holds 1 (by omega)
  have h₂ : u.mem (u.eip + 2) = (num >>> 8).setWidth 8 := h.holds 2 (by omega)
  have h₃ : u.mem (u.eip + 3) = (num >>> 16).setWidth 8 := h.holds 3 (by omega)
  have h₄ : u.mem (u.eip + 4) = (num >>> 24).setWidth 8 := h.holds 4 (by omega)
  have hlt := num.isLt
  simp only [getLE, Nat.add_assoc, Nat.reduceAdd]
  rw [h₁, h₂, h₃, h₄]
  simp only [BitVec.toNat_setWidth, BitVec.toNat_ushiftRight, Nat.shiftRight_eq_div_pow]
  omega

theorem calls_succ : calls (n + 1) u = match step u with
    | none => []
    | some (none, u) => calls n u
    | some (some .exit, _) => [.exit]
    | some (some c, u) => c :: calls n u := rfl

theorem step_mov (h : Runs u (callCode num ++ rest)) :
    step u = some (none, { u with eax := num.toNat, eip := u.eip + 5 }) := by
  have hlen : 7 ≤ (callCode num ++ rest).length := callCode_length_le
  have hb₀ : u.mem u.eip = 0xB8 := h.holds 0 (by omega)
  have hmov : mov u = some { u with eax := num.toNat, eip := u.eip + 5 } := by
    unfold mov
    rw [if_pos (h.covers (by omega)), getLE_callCode h]
  unfold step
  rw [hb₀, if_neg (by decide), if_pos rfl, hmov]
  rfl

theorem Runs.int (h : Runs u (callCode num ++ rest)) (eax : ℕ) :
    Runs { u with eax := eax, eip := u.eip + 5 } ([0xCD, 0x40] ++ rest) := by
  have hsplit : Runs u ([0xB8, num.setWidth 8, (num >>> 8).setWidth 8, (num >>> 16).setWidth 8,
      (num >>> 24).setWidth 8] ++ ([0xCD, 0x40] ++ rest)) := h
  exact hsplit.drop (fun _ _ => rfl) rfl rfl

theorem step_int (h : Runs u ([0xCD, 0x40] ++ rest)) :
    step u = (syscall { u with eip := u.eip + 2 }).map fun r => (some r.1, r.2) := by
  have hlen : 2 ≤ ([0xCD, 0x40] ++ rest).length := Nat.le_add_left 2 _
  have hb₀ : u.mem u.eip = 0xCD := h.holds 0 (by omega)
  have hb₁ : u.mem (u.eip + 1) = 0x40 := h.holds 1 (by omega)
  unfold step
  rw [hb₀, if_neg (by decide), if_neg (by decide), if_pos ⟨rfl, hb₁, h.covers hlen⟩]

/-- `movl $num, %eax` and `int $64` are the system call `num`. -/
theorem calls_callCode (h : Runs u (callCode num ++ rest)) :
    calls (n + 2) u = match syscall { u with eax := num.toNat, eip := u.eip + 7 } with
      | none => []
      | some (.exit, _) => [.exit]
      | some (.reboot type, u') => .reboot type :: calls n u' := by
  have hint := step_int (h.int num.toNat)
  rw [calls_succ, step_mov h]
  dsimp only
  rw [calls_succ, hint]
  dsimp only
  cases syscall { u with eax := num.toNat, eip := u.eip + 5 + 2 } with
  | none => rfl
  | some r =>
    obtain ⟨c, u'⟩ := r
    cases c with
    | reboot type => rfl
    | exit => rfl

theorem calls_exit (h : Runs u (callCode 2 ++ rest)) : calls (n + 2) u = [.exit] := by
  rw [calls_callCode h]
  rfl

theorem calls_end (h : Runs u ([] ++ callCode 2)) : calls (n + 2) u = [.exit] := by
  rw [List.nil_append, ← List.append_nil (callCode 2)] at h
  exact calls_exit h

theorem argint_zero (hst : Stacked u) (hroom : u.esp + 8 ≤ u.sz) :
    argint u 0 = some (BitVec.ofNat 32 (getLE u.mem (u.esp + 4) 4)).toInt := by
  have hlt := hst.lt
  unfold KERNBASE at hlt
  have haddr : (u.esp + 4 + 4 * 0) % UINT = u.esp + 4 := by
    unfold UINT
    omega
  have hend : (u.esp + 4 + 4) % UINT = u.esp + 8 := by
    unfold UINT
    omega
  unfold argint fetchint
  rw [haddr, if_neg (by rw [hend]; omega)]

theorem syscall_reboot {v : ℤ} (hnum : u.eax = SYS_reboot) (harg : argint u 0 = some v) :
    syscall u = some (.reboot (some v), { u with eax := 0 }) := by
  unfold syscall
  rw [if_pos hnum, harg]
  rfl

theorem covers_top (hst : Stacked u) {sp : ℕ} (hlo : u.sz - PGSIZE ≤ sp) (hhi : sp + 4 ≤ u.sz) :
    u.Covers sp 4 := by
  intro i hi
  have hpages := hst.pages
  unfold User.Reaches
  omega

theorem esp_sub (hst : Stacked u) : (u.esp + UINT - 4) % UINT = u.esp - 4 := by
  have hlo := hst.lo
  have hhi := hst.hi
  have hpages := hst.pages
  have hlt := hst.lt
  have hpage : PGSIZE = 4096 := rfl
  unfold KERNBASE at hlt
  unfold UINT
  omega

def pushed (u : User) (arg : BitVec 32) : User :=
  { u with
    mem := putLE u.mem (u.esp - 4) 4 ((arg.setWidth 8).signExtend 32).toNat
    esp := u.esp - 4
    eip := u.eip + 2 }

theorem rebootCode_runs (h : Runs u (rebootCode arg ++ rest)) :
    u.mem u.eip = 0x6A ∧ u.mem (u.eip + 1) = arg.setWidth 8 ∧ u.Covers u.eip 2 := by
  have hlen : 9 ≤ (rebootCode arg ++ rest).length := by
    rw [List.length_append]
    exact Nat.le_add_right 9 _
  exact ⟨h.holds 0 (by omega), h.holds 1 (by omega), h.covers (by omega)⟩

theorem step_push (h : Runs u (rebootCode arg ++ rest)) (hst : Stacked u)
    (hroom : u.sz - PGSIZE + 4 ≤ u.esp) : step u = some (none, pushed u arg) := by
  obtain ⟨hb₀, hb₁, hfetch⟩ := rebootCode_runs h
  have hhi := hst.hi
  have hcov : u.Covers (u.esp - 4) 4 := covers_top hst (by omega) (by omega)
  unfold step push
  rw [if_pos hb₀]
  dsimp only
  rw [esp_sub hst, if_pos ⟨hfetch, hcov⟩, hb₁]
  rfl

theorem runs_pushed (h : Runs u (rebootCode arg ++ rest)) (hst : Stacked u)
    (hroom : u.sz - PGSIZE + 4 ≤ u.esp) : Runs (pushed u arg) (callCode 23 ++ rest) := by
  have hpages := hst.pages
  have hpage : PGSIZE = 4096 := rfl
  have hlow : ∀ a < u.sz - 2 * PGSIZE, (pushed u arg).mem a = u.mem a := fun a ha =>
    putLE_of_lt (by omega)
  unfold rebootCode at h
  rw [List.append_assoc] at h
  exact h.drop hlow rfl rfl

theorem stacked_pushed (hst : Stacked u) (hroom : u.sz - PGSIZE + 4 ≤ u.esp) :
    Stacked (pushed u arg) where
  lo := show u.sz - PGSIZE ≤ u.esp - 4 by omega
  hi := show u.esp - 4 + 4 ≤ u.sz by
    have := hst.hi
    omega
  pages := hst.pages
  lt := hst.lt

/-- A word is pushed, and `argint` finds the one that was on top before. -/
theorem calls_reboot (h : Runs u (rebootCode arg ++ rest)) (hst : Stacked u)
    (hroom : u.sz - PGSIZE + 4 ≤ u.esp) :
    ∃ u', Runs u' rest ∧ Stacked u' ∧ u'.sz = u.sz ∧ u'.esp = u.esp - 4 ∧
      top u' = ((arg.setWidth 8).signExtend 32).toInt ∧
      ∀ n, calls (n + 3) u = .reboot (some (top u)) :: calls n u' := by
  have hlo := hst.lo
  have hhi := hst.hi
  have hpages := hst.pages
  have hpage : PGSIZE = 4096 := rfl
  have hesp : (pushed u arg).esp = u.esp - 4 := rfl
  have hruns := runs_pushed h hst hroom
  have hst' : Stacked (pushed u arg) := stacked_pushed hst hroom
  have hword : getLE (pushed u arg).mem (u.esp - 4) 4 =
      ((arg.setWidth 8).signExtend 32).toNat := by
    refine (getLE_putLE _ _ _ _).trans (Nat.mod_eq_of_lt ?_)
    exact ((arg.setWidth 8).signExtend 32).isLt
  -- the call sees the stack that the push has left
  have harg : ∀ v, v.mem = (pushed u arg).mem → v.sz = u.sz → v.esp = u.esp - 4 →
      argint v 0 = some (top u) := by
    intro v hmem hsz hesp
    have hstv : Stacked v := by
      refine ⟨?_, ?_, ?_, ?_⟩ <;> rw [hsz]
      · rw [hesp]
        omega
      · rw [hesp]
        omega
      · exact hpages
      · exact hst.lt
    rw [argint_zero hstv (by rw [hesp, hsz]; omega), hesp, hmem, Nat.sub_add_cancel (by omega)]
    unfold top pushed
    rw [getLE_putLE_of_disjoint (by omega)]
  refine ⟨{ pushed u arg with eax := 0, eip := u.eip + 9 }, hruns.drop (fun _ _ => rfl) rfl rfl,
    ⟨hst'.lo, hst'.hi, hst'.pages, hst'.lt⟩, rfl, rfl, ?_, fun n => ?_⟩
  · show (BitVec.ofNat 32 (getLE (pushed u arg).mem (u.esp - 4) 4)).toInt = _
    rw [hword, BitVec.ofNat_toNat, BitVec.setWidth_eq]
  · rw [calls_succ, step_push h hst hroom]
    show calls (n + 2) (pushed u arg) = _
    have hcall := syscall_reboot (u := { pushed u arg with
      eax := (23 : BitVec 32).toNat, eip := (pushed u arg).eip + 7 }) rfl (harg _ rfl rfl rfl)
    dsimp only at hcall
    rw [calls_callCode hruns, hcall]
    rfl

theorem calls_mono (n : ℕ) (u : User) : calls n u <+: calls (n + 1) u := by
  induction n generalizing u with
  | zero => exact List.nil_prefix
  | succ n ih =>
    rw [calls_succ, calls_succ]
    split
    · exact List.prefix_refl _
    · exact ih _
    · exact List.prefix_refl _
    · exact (List.prefix_cons_inj _).mpr (ih _)

theorem step_no_room (h : Runs u (rebootCode arg ++ rest)) (hst : Stacked u)
    (hroom : ¬ u.sz - PGSIZE + 4 ≤ u.esp) : step u = none := by
  obtain ⟨hb₀, -, -⟩ := rebootCode_runs h
  have hlo := hst.lo
  have hpages := hst.pages
  have hpage : PGSIZE = 4096 := rfl
  have hcov : ¬ u.Covers (u.esp - 4) 4 := fun hc => by
    have := hc 0 (by decide)
    unfold User.Reaches at this
    omega
  unfold step push
  rw [if_pos hb₀]
  dsimp only
  rw [esp_sub hst, if_neg fun hc => hcov hc.2]
  rfl

theorem calls_no_room (h : Runs u (rebootCode arg ++ rest)) (hst : Stacked u)
    (hroom : ¬ u.sz - PGSIZE + 4 ≤ u.esp) (n : ℕ) : calls n u = [] := by
  cases n with
  | zero => rfl
  | succ n => rw [calls_succ, step_no_room h hst hroom]

end Run

/-! ## The calls of a program -/

section Calls

variable {u : User} {stmts : List Stmt} {argv : List Exec.Str} {input out : Str} {n : ℕ}

/-- What the kernel gets from a compiled program, with `top` on the stack. -/
def received : ℤ → List Stmt → List Call
  | _, [] => [.exit]
  | _, .exit :: _ => [.exit]
  | top, .reboot ds :: stmts =>
    .reboot (some top) :: received (((value ds).setWidth 8).signExtend 32).toInt stmts

/-- The `reboot` statements up to the first `exit`. -/
def reboots : List Stmt → ℕ
  | [] => 0
  | .exit :: _ => 0
  | .reboot _ :: stmts => reboots stmts + 1

/-- With room for its arguments on the stack, a compiled program passes to each `reboot` the
argument of the one before it. -/
theorem calls_received (h : Runs u (stmts.flatMap Stmt.code ++ callCode 2)) (hst : Stacked u)
    (hroom : u.sz - PGSIZE + 4 * reboots stmts ≤ u.esp) :
    ∃ n, calls n u = received (top u) stmts := by
  induction stmts generalizing u with
  | nil => exact ⟨2, calls_end h⟩
  | cons st stmts ih =>
    rw [List.flatMap_cons, List.append_assoc] at h
    cases st with
    | exit => exact ⟨2, calls_exit h⟩
    | reboot ds =>
      unfold reboots at hroom
      obtain ⟨u', hruns, hst', hsz, hesp, htop, hcalls⟩ := calls_reboot h hst (by omega)
      obtain ⟨n, hn⟩ := ih hruns hst' (by rw [hsz, hesp]; omega)
      refine ⟨n + 3, ?_⟩
      rw [hcalls, hn, htop]
      rfl

/-- A `reboot` that comes first gets the fake return address, which is no number. -/
theorem first_reboot_fails {ds rest : Str} (h : Runs u (rebootCode (value ds) ++ rest))
    (hst : Stacked u) (htop : top u = -1) (k : ℕ) : calls k u ≠ meaning (.reboot ds :: stmts) := by
  intro hk
  by_cases hroom : u.sz - PGSIZE + 4 ≤ u.esp
  · obtain ⟨u', -, -, -, -, -, hcalls⟩ := calls_reboot h hst hroom
    have hle : meaning (.reboot ds :: stmts) <+: calls (k + 3) u := by
      rw [← hk]
      exact ((calls_mono k u).trans (calls_mono (k + 1) u)).trans (calls_mono (k + 2) u)
    rw [hcalls, htop] at hle
    have hhead := (List.cons_prefix_cons.mp hle).1
    injection hhead with hhead
    injection hhead with hhead
    omega
  · rw [calls_no_room h hst hroom] at hk
    cases hk

/-- For every program of `reboot` and `exit` calls that dcc accepts, run with any arguments: the
code makes the calls of the program exactly when no `reboot` comes first. -/
theorem dcc_preserves_meaning_iff (hsrc : Source input stmts)
    (hdcc : dcc n true input = some (.ok out)) (henter : enter (fileOf out) argv = some u) :
    (∃ k, calls k u = meaning stmts) ↔ ∀ ds, stmts.head? ≠ some (.reboot ds) := by
  obtain ⟨code, rfl, hlen, rfl⟩ := dcc_code hsrc hdcc
  obtain ⟨hruns, hst, htop⟩ := enter_spec hlen henter
  cases stmts with
  | nil => exact ⟨fun _ _ => nofun, fun _ => ⟨2, calls_end hruns⟩⟩
  | cons st stmts =>
    rw [List.flatMap_cons, List.append_assoc] at hruns
    cases st with
    | exit => exact ⟨fun _ _ => nofun, fun _ => ⟨2, calls_exit hruns⟩⟩
    | reboot ds =>
      refine ⟨fun ⟨k, hk⟩ => ?_, fun h => absurd rfl (h ds)⟩
      exact absurd hk (first_reboot_fails hruns hst htop k)

/-- `int main(){exit();}` -/
def exitText : Str :=
  lit ['i', 'n', 't', ' ', 'm', 'a', 'i', 'n', '(', ')', '{', 'e', 'x', 'i', 't', '(', ')', ';', '}']

theorem exitText_source : Source exitText [.exit] :=
  ⟨.name mainName, [], .inl rfl, .cons rfl (.cons rfl (.cons rfl (.cons rfl (.cons rfl
    (.cons rfl (.cons rfl (.cons rfl (.cons rfl (.cons rfl .nil)))))))))⟩

theorem dcc_preserves_meaning_iff_exit :
    ∃ u, enter (fileOf (compiled (callCode 2 ++ callCode 2))) [] = some u ∧
      ((∃ k, calls k u = meaning [.exit]) ↔ ∀ ds, [Stmt.exit].head? ≠ some (.reboot ds)) := by
  have hdcc : dcc 2 true exitText = some (.ok (compiled (callCode 2 ++ callCode 2))) := by
    decide +kernel
  have henter : (enter (fileOf (compiled (callCode 2 ++ callCode 2))) []).isSome = true := by
    decide +kernel
  obtain ⟨u, hu⟩ := Option.isSome_iff_exists.mp henter
  exact ⟨u, hu, dcc_preserves_meaning_iff exitText_source hdcc hu⟩

/-- `int main(){reboot(1);}` -/
def rebootText : Str :=
  lit ['i', 'n', 't', ' ', 'm', 'a', 'i', 'n', '(', ')', '{', 'r', 'e', 'b', 'o', 'o', 't', '(',
    '1', ')', ';', '}']

theorem rebootText_source : Source rebootText [.reboot (lit ['1'])] :=
  ⟨.name mainName, [], .inl rfl, .cons rfl (.cons rfl (.cons rfl (.cons rfl (.cons rfl
    (.cons rfl (.cons rfl (.cons rfl (.cons rfl (.cons rfl (.cons rfl .nil))))))))))⟩

/-- `sys_reboot` gets -1 for the 1 of the program. -/
theorem reboot_gets_return_address :
    Source rebootText [.reboot (lit ['1'])] ∧
      dcc 2 true rebootText = some (.ok (compiled (rebootCode 1 ++ callCode 2))) ∧
      ∃ u, enter (fileOf (compiled (rebootCode 1 ++ callCode 2))) [] = some u ∧
        calls 5 u = [.reboot (some (-1)), .exit] ∧ ∀ k, calls k u ≠ meaning [.reboot (lit ['1'])] := by
  have hdcc : dcc 2 true rebootText = some (.ok (compiled (rebootCode 1 ++ callCode 2))) := by
    decide +kernel
  have hrun : (enter (fileOf (compiled (rebootCode 1 ++ callCode 2))) []).map (calls 5) =
      some [.reboot (some (-1)), .exit] := by
    decide +kernel
  obtain ⟨u, hu, hcalls⟩ := Option.map_eq_some_iff.mp hrun
  obtain ⟨hruns, hst, htop⟩ := enter_spec (by decide) hu
  have hruns' : Runs u (rebootCode (value (lit ['1'])) ++ callCode 2) := hruns
  exact ⟨rebootText_source, hdcc, u, hu, hcalls, first_reboot_fails hruns' hst htop⟩

/-- For every program that dcc accepts, run with any arguments that leave room on the stack page: the
first `reboot` gets -1, the return address, and each other the low byte of the argument before. -/
theorem dcc_received (hsrc : Source input stmts) (hdcc : dcc n true input = some (.ok out))
    (henter : enter (fileOf out) argv = some u)
    (hroom : u.sz - PGSIZE + 4 * reboots stmts ≤ u.esp) :
    ∃ k, calls k u = received (-1) stmts := by
  obtain ⟨code, rfl, hlen, rfl⟩ := dcc_code hsrc hdcc
  obtain ⟨hruns, hst, htop⟩ := enter_spec hlen henter
  rw [← htop]
  exact calls_received hruns hst hroom

theorem dcc_received_reboot :
    ∃ u, enter (fileOf (compiled (rebootCode 1 ++ callCode 2))) [] = some u ∧
      ∃ k, calls k u = [.reboot (some (-1)), .exit] := by
  have hdcc : dcc 2 true rebootText = some (.ok (compiled (rebootCode 1 ++ callCode 2))) := by
    decide +kernel
  have hroom : (enter (fileOf (compiled (rebootCode 1 ++ callCode 2))) []).map
      (fun u => decide (u.sz - PGSIZE + 4 ≤ u.esp)) = some true := by
    decide +kernel
  obtain ⟨u, hu, hle⟩ := Option.map_eq_some_iff.mp hroom
  exact ⟨u, hu, dcc_received rebootText_source hdcc hu (of_decide_eq_true hle)⟩

end Calls

end DuckoUnix.Dcc
