import DuckoUnix.Log.Ready

/-!
# When the buffer cache runs out

The machine of `DuckoUnix.LogCrash` once it has recovered, with the loops of `commit` line by line: a
call of `bget`, `acquiresleep` with the read of the disk, `bwrite` or `brelse` is a step, so that
processes that read come in between.

`bget` finds a buffer as long as the references that processes hold and the blocks in `log.lh` are
together fewer than `NBUF`: a buffer that cannot be recycled is referenced or dirty, and the dirty
ones are in `log.lh`. Nothing in the kernel keeps the sum that small. A process that reads a file is
in no transaction, so `begin_op` does not hold it back, and `NBUF` processes that sleep on their
reads hold the whole cache.
-/

namespace DuckoUnix.LogBuffers

open Lib Bio LogDisk LogCrash Function

variable {N : ℕ} {m m' : Mem N} {p q : Fin N} {i j : Fin NBUF} {b c : ℕ} {L : List ℕ}

/-! ## The machine -/

/-- A line of `commit` that uses the buffer cache. The buffers at hand are that of a block of the log
(`false`) and that of a logged block (`true`). -/
inductive Line
  | bget (x : Bool) (b : ℕ)
  | lock (x : Bool)
  /-- copy the data of the other buffer to `x` and write it -/
  | copy (x : Bool)
  /-- fill in the header and write it -/
  | head (block : List ℕ)
  | brelse (x : Bool)

/-- A round of `write_log` or `install_trans`, which copies to the buffer `x`. -/
def copies (x : Bool) (logblock b : ℕ) : List Line :=
  [.bget false logblock, .lock false, .bget true b, .lock true, .copy x, .brelse (!x), .brelse x]

def writesHead (start : ℕ) (block : List ℕ) : List Line :=
  [.bget false start, .lock false, .head block, .brelse false]

/-- The lines up to the next step of `commit` in the control state. -/
def lines (s : LogOps.State N) (p : Fin N) : List Line :=
  match s.procs p with
  | .writeLog tail =>
    match s.log.block[tail]? with
    | some b => copies false (s.log.start + tail + 1) b
    | none => writesHead s.log.start s.log.block
  | .install tail =>
    match s.log.block[tail]? with
    | some b => copies true (s.log.start + tail + 1) b
    | none => []
  | .clearHead => writesHead s.log.start s.log.block
  | _ => []

/-- The log, the cache, and how far the process that commits has come with its lines. -/
structure State (N : ℕ) where
  ops : LogOps.State N
  mem : Mem N
  line : ℕ
  hand : Bool → Fin NBUF
  halted : Option Panic

/-- Go on after a call into the buffer cache; a panic stops the kernel, a sleep is no step. -/
def State.call {α : Type} (s : State N) (r : Except Stop α) (k : α → Option (State N)) :
    Option (State N) :=
  match r with
  | .ok a => k a
  | .error .sleep => none
  | .error (.panic e) => some { s with halted := some e }

def State.log (s : State N) (a : LogOps.Act N) : Option (State N) :=
  (LogOps.step s.ops a).map fun ops => { s with ops := ops }

/-- One line of `commit`. -/
def exec (s : State N) (p : Fin N) : Line → Except Stop (State N)
  | .bget x b => do
    let (m, i) ← Bio.bget s.mem p ROOTDEV b
    .ok { s with mem := m, hand := update s.hand x i }
  | .lock x => do
    let m ← lockRead s.mem p (s.hand x)
    .ok { s with mem := m }
  | .copy x => do
    let m ← bwrite (memmove s.mem (s.hand x) (s.mem.buf (s.hand !x)).data) p (s.hand x)
    .ok { s with mem := m }
  | .head block => do
    let m ← bwrite (memmove s.mem (s.hand false)
      (writeHeader (s.mem.buf (s.hand false)).data block)) p (s.hand false)
    .ok { s with mem := m }
  | .brelse x => do
    let m ← Bio.brelse s.mem p (s.hand x)
    .ok { s with mem := m }

def commit (s : State N) (p : Fin N) : Option (State N) :=
  match (lines s.ops p)[s.line]? with
  | none => s.log (.commit p)
  | some l => s.call (exec s p l) fun t =>
    if s.line + 1 < (lines s.ops p).length then some { t with line := s.line + 1 }
    else { t with line := 0 }.log (.commit p)

/-- A step of process `p`. A process that waits for a buffer does nothing else. -/
def procStep (s : State N) (p : Fin N) : ProcAct → Option (State N)
  | .beginOp => if s.mem.want p = none then s.log (.beginOp p) else none
  | .bget b =>
    if s.mem.want p = none ∧ Running (s.ops.procs p) then
      s.call (Bio.bget s.mem p ROOTDEV b) fun r => some { s with mem := r.1 }
    else none
  | .lock =>
    match s.mem.want p with
    | some i =>
      if Running (s.ops.procs p) then
        s.call (lockRead s.mem p i) fun m => some { s with mem := m }
      else none
    | none => none
  | .modify i d =>
    match s.ops.procs p with
    | .op _ _ =>
      if s.mem.want p = none ∧ (s.mem.buf i).lock = some p then
        some { s with mem := Bio.modify s.mem p i d }
      else none
    | _ => none
  | .logCheck i =>
    if s.mem.want p = none ∧ (s.mem.buf i).lock = some p then
      s.log (.logCheck p (s.mem.buf i).blockno)
    else none
  | .logWrite i =>
    match s.ops.procs p with
    | .checked _ _ b =>
      if (s.mem.buf i).lock = some p ∧ (s.mem.buf i).blockno = b then
        (LogOps.step s.ops (.logWrite p)).map fun ops =>
          { s with ops := ops, mem := if ops.panic.isSome then s.mem else mark s.mem i }
      else none
    | _ => none
  | .brelse i =>
    if s.mem.want p = none ∧ Running (s.ops.procs p) ∧ s.mem.touched i ≠ some p then
      s.call (Bio.brelse s.mem p i) fun m => some { s with mem := m }
    else none
  | .endOp =>
    if s.mem.want p = none ∧ ∀ i, s.mem.touched i ≠ some p then s.log (.endOp p) else none
  | .commit => commit s p
  | .kill => s.log (.kill p)

def step (s : State N) (a : Fin N × ProcAct) : Option (State N) :=
  if s.ops.panic.isSome = true ∨ s.halted.isSome = true then none else procStep s a.1 a.2

/-- The kernel has recovered and nothing has happened since. -/
structure State.Init (s : State N) : Prop where
  ops : ∃ start, s.ops = LogOps.init N start
  mem : Ok s.mem
  clean : ∀ b, ¬ Dirty s.mem b
  touched : ∀ i, s.mem.touched i = none
  line : s.line = 0
  halted : s.halted = none

/-! ## Buffers that cannot be recycled -/

/-- The references to buffers that processes hold. -/
def refs (m : Mem N) : ℕ := ∑ i, (m.buf i).refcnt

/-- There is room for one more buffer beside the references and the blocks `L`. -/
structure HasRoom (m : Mem N) (L : List ℕ) : Prop where
  ok : Ok m
  dirty : ∀ b, Dirty m b → b ∈ L
  lt : refs m + L.length < NBUF

theorem HasRoom.exists_unused (h : HasRoom m L) : ∃ i, (m.buf i).Unused := by
  classical
  by_contra hno
  let held : Finset (Fin NBUF) := Finset.univ.filter fun i => 0 < (m.buf i).refcnt
  let dirty : Finset (Fin NBUF) := Finset.univ.filter fun i => (m.buf i).dirty = true
  have hcover : (Finset.univ : Finset (Fin NBUF)) ⊆ held ∪ dirty := by
    intro i _
    rw [Finset.mem_union, Finset.mem_filter, Finset.mem_filter]
    by_cases hr : 0 < (m.buf i).refcnt
    · exact .inl ⟨Finset.mem_univ i, hr⟩
    · refine .inr ⟨Finset.mem_univ i, ?_⟩
      by_contra hd
      exact hno ⟨i, by omega, by simpa using hd⟩
  have hheld : held.card ≤ refs m := by
    calc held.card = ∑ i ∈ held, 1 := Finset.card_eq_sum_ones held
      _ ≤ ∑ i ∈ held, (m.buf i).refcnt :=
        Finset.sum_le_sum fun i hi => (Finset.mem_filter.mp hi).2
      _ ≤ refs m := Finset.sum_le_sum_of_subset (Finset.subset_univ _)
  have hdirty : dirty.card ≤ L.length := by
    have hinj : Set.InjOn (fun i => (m.buf i).blockno) dirty := by
      intro i hi j hj hij
      have hi := (Finset.mem_filter.mp (Finset.mem_coe.mp hi)).2
      have hj := (Finset.mem_filter.mp (Finset.mem_coe.mp hj)).2
      exact h.ok.key i j (m.buf i).blockno ⟨((h.ok.buf i).dirty hi).1, rfl⟩
        ⟨((h.ok.buf j).dirty hj).1, hij.symm⟩
    calc dirty.card = (dirty.image fun i => (m.buf i).blockno).card :=
          (Finset.card_image_of_injOn hinj).symm
      _ ≤ L.toFinset.card := by
        refine Finset.card_le_card fun b hb => ?_
        obtain ⟨i, hi, rfl⟩ := Finset.mem_image.mp hb
        have hi := (Finset.mem_filter.mp hi).2
        exact List.mem_toFinset.mpr (h.dirty _ ⟨i, ⟨((h.ok.buf i).dirty hi).1, rfl⟩, hi⟩)
      _ ≤ L.length := List.toFinset_card_le L
  have hall := (Finset.card_le_card hcover).trans (Finset.card_union_le _ _)
  rw [Finset.card_univ, Fintype.card_fin] at hall
  have := h.lt
  omega

/-! ## Calls that do not run out -/

/-- The call does not end in `panic("bget: no buffers")`. -/
def Finds {α : Type} (r : Except Stop α) : Prop := r ≠ .error (.panic .noBuffers)

theorem Finds.bind {α β : Type} {x : Except Stop α} {f : α → Except Stop β} (hx : Finds x)
    (hf : ∀ a, x = .ok a → Finds (f a)) : Finds (x >>= f) := by
  cases x with
  | error e => exact fun h => hx (by rw [error_bind] at h; cases h; rfl)
  | ok a => exact hf a rfl

def Cached (m : Mem N) (b : ℕ) : Prop := ∃ i, (m.buf i).Is ROOTDEV b

instance : Decidable (Cached m b) := inferInstanceAs (Decidable (∃ _, _))

theorem bget_finds (h : Ok m) (hroom : Cached m b ∨ HasRoom m L) :
    Finds (Bio.bget m p ROOTDEV b) := by
  unfold Bio.bget
  cases hhit : m.order.find? fun i => (m.buf i).Is ROOTDEV b with
  | some i => exact nofun
  | none =>
    rw [List.find?_eq_none] at hhit
    rcases hroom with ⟨i, hi⟩ | hroom
    · exact absurd (decide_eq_true hi) (hhit i (h.order i))
    · obtain ⟨i, hi⟩ := hroom.exists_unused
      cases hfree : m.order.reverse.find? fun i => (m.buf i).Unused with
      | some j => exact nofun
      | none =>
        rw [List.find?_eq_none] at hfree
        exact absurd (decide_eq_true hi) (hfree i (List.mem_reverse.mpr (h.order i)))

theorem iderw_finds : Finds (Bio.iderw m p i) := by
  unfold Bio.iderw
  dsimp only
  split_ifs <;> exact nofun

theorem lockRead_finds : Finds (lockRead m p i) := by
  refine Finds.bind ?_ fun m₁ _ => ?_
  · unfold acquiresleep
    split_ifs <;> exact nofun
  · split_ifs
    · exact nofun
    · exact iderw_finds

theorem bwrite_finds : Finds (bwrite m p i) := by
  unfold bwrite
  split_ifs
  · exact nofun
  · exact iderw_finds

theorem brelse_finds : Finds (Bio.brelse m p i) := by
  unfold Bio.brelse
  dsimp only
  split_ifs <;> exact nofun

/-! ## What other processes leave alone -/

/-- What process `p` waits for and holds stays so, and stays the buffer of its block. -/
structure Keeps (p : Fin N) (m m' : Mem N) : Prop where
  want : m'.want p = m.want p
  wanted : ∀ j b, m.want p = some j → (m.buf j).Is ROOTDEV b → (m'.buf j).Is ROOTDEV b
  locked : ∀ j b, (m.buf j).lock = some p → (m.buf j).Is ROOTDEV b →
    (m'.buf j).Is ROOTDEV b ∧ (m'.buf j).lock = some p

/-- A change of buffer `i` alone that keeps its block and a lock of `p`. -/
theorem keeps_of {x : Buf N} (hbuf : m'.buf = update m.buf i x)
    (hwant : m'.want p = m.want p)
    (hx : m.want p = some i ∨ (m.buf i).lock = some p →
      (∀ b, (m.buf i).Is ROOTDEV b → x.Is ROOTDEV b) ∧
      ((m.buf i).lock = some p → x.lock = some p)) : Keeps p m m' where
  want := hwant
  wanted := fun j b hj hb => by
    rw [hbuf]
    by_cases e : j = i
    · rw [e] at hj hb ⊢
      rw [update_self]
      exact (hx (.inl hj)).1 b hb
    · rw [update_of_ne e]
      exact hb
  locked := fun j b hj hb => by
    rw [hbuf]
    by_cases e : j = i
    · rw [e] at hj hb ⊢
      rw [update_self]
      exact ⟨(hx (.inr hj)).1 b hb, (hx (.inr hj)).2 hj⟩
    · rw [update_of_ne e]
      exact ⟨hb, hj⟩

theorem bget_keeps (h : Ok m) (e : q ≠ p) (hget : Bio.bget m q ROOTDEV b = .ok (m', i)) :
    Keeps p m m' := by
  rcases bget_cases h hget with ⟨-, rfl⟩ | ⟨-, hi, rfl⟩
  · exact keeps_of rfl (update_of_ne e.symm _ _) fun _ => ⟨fun _ hb => hb, id⟩
  · refine keeps_of rfl (update_of_ne e.symm _ _) fun hused => ?_
    -- a buffer that `p` waits for or holds is not recycled
    obtain ⟨hlock, hwaiting, -⟩ := h.unused hi
    rcases hused with hw | hl
    · have := waiting_pos hw
      omega
    · rw [hlock] at hl
      cases hl

theorem lockRead_keeps (h : Ok m) (e : q ≠ p) (hread : lockRead m q i = .ok m') :
    Keeps p m m' := by
  obtain ⟨hfree, -, rfl⟩ := lockRead_eq h hread
  refine keeps_of rfl (update_of_ne e.symm _ _) fun _ => ⟨fun _ hb => hb, fun hl => ?_⟩
  rw [hfree] at hl
  cases hl

theorem brelse_keeps (e : q ≠ p) (hrel : Bio.brelse m q i = .ok m') : Keeps p m m' := by
  unfold Bio.brelse at hrel
  split_ifs at hrel with hl
  cases hrel
  refine keeps_of rfl rfl fun _ => ⟨fun _ hb => hb, fun hl' => ?_⟩
  rw [not_not.mp hl] at hl'
  exact absurd (Option.some.inj hl') e

/-! ## The invariant -/

variable {s s' : State N}

/-- What the process waits for before line `l`. -/
def awaits (hand : Bool → Fin NBUF) : Option Line → Option (Fin NBUF)
  | some (.lock x) => some (hand x)
  | _ => none

/-- The process `p` that commits: in `install_trans` what is dirty is yet to be installed. -/
structure Round (s : State N) (p : Fin N) : Prop where
  line : s.line = 0 ∨ s.line < (lines s.ops p).length
  want : s.mem.want p = awaits s.hand (lines s.ops p)[s.line]?
  left : ∀ tail, s.ops.procs p = .install tail → ∀ c, Dirty s.mem c →
    c ∈ s.ops.log.block.drop (if s.line ≤ 4 then tail else tail + 1)
  found : ∀ tail b, s.ops.procs p = .install tail → s.ops.log.block[tail]? = some b →
    s.line = 3 → (s.mem.buf (s.hand true)).Is ROOTDEV b
  taken : ∀ tail b, s.ops.procs p = .install tail → s.ops.log.block[tail]? = some b →
    s.line = 4 → (s.mem.buf (s.hand true)).Is ROOTDEV b ∧
      (s.mem.buf (s.hand true)).lock = some p

structure Inv (s : State N) : Prop where
  ops : LogOps.Inv s.ops
  mem : Ok s.mem
  /-- only a process in an operation changes buffers -/
  touched : ∀ i p, s.mem.touched i = some p → (s.ops.procs p).inOp = true
  dirty : ∀ b, Dirty s.mem b → b ∈ s.ops.log.block
  idle : (∀ p, (s.ops.procs p).inCommit = false) → s.line = 0
  round : ∀ p, (s.ops.procs p).inCommit = true → Round s p

theorem Inv.init (h : s.Init) : Inv s := by
  obtain ⟨start, hops⟩ := h.ops
  have hidle : ∀ p, s.ops.procs p = .idle := fun p => by rw [hops]; rfl
  refine ⟨by rw [hops]; exact LogOps.init_inv start, h.mem, ?_, ?_, fun _ => h.line, ?_⟩
  · intro i p hi
    rw [h.touched i] at hi
    cases hi
  · exact fun b hb => absurd hb (h.clean b)
  · intro p hp
    rw [hidle p] at hp
    cases hp

theorem lines_congr {t t' : LogOps.State N} (hp : t'.procs p = t.procs p)
    (hstart : t'.log.start = t.log.start) (hblock : t'.log.block = t.log.block) :
    lines t' p = lines t p := by
  unfold lines
  rw [hp, hstart, hblock]

/-- A round of `p` while another process does something. -/
theorem Round.keep (h : Round s p) (hline : s'.line = s.line) (hhand : s'.hand = s.hand)
    (hp : s'.ops.procs p = s.ops.procs p) (hstart : s'.ops.log.start = s.ops.log.start)
    (hblock : s'.ops.log.block = s.ops.log.block) (hk : Keeps p s.mem s'.mem)
    (hd : Dirty s'.mem = Dirty s.mem) : Round s' p := by
  have hlines := lines_congr hp hstart hblock
  refine ⟨?_, ?_, ?_, ?_, ?_⟩
  · rw [hline, hlines]
    exact h.line
  · rw [hk.want, hline, hlines, hhand]
    exact h.want
  · rw [hp, hblock, hline, hd]
    exact h.left
  · rw [hp, hblock, hline, hhand]
    intro tail b htail hb hl
    refine hk.wanted _ b ?_ (h.found tail b htail hb hl)
    have hw := h.want
    unfold lines at hw
    simp only [htail, hb, hl, copies] at hw
    exact hw
  · rw [hp, hblock, hline, hhand]
    intro tail b htail hb hl
    obtain ⟨his, hlock⟩ := h.taken tail b htail hb hl
    exact hk.locked _ b hlock his

/-! ## Steps of processes that do not commit -/

/-- A use of the cache by process `q` outside of `commit`. -/
theorem Inv.cache (h : Inv s) (hq : (s.ops.procs q).inCommit = false) (hok : Ok m')
    (hd : Dirty m' = Dirty s.mem) (ht : m'.touched = s.mem.touched)
    (hk : ∀ p, q ≠ p → Keeps p s.mem m') : Inv { s with mem := m' } where
  ops := h.ops
  mem := hok
  touched := by rw [ht]; exact h.touched
  dirty := by rw [hd]; exact h.dirty
  idle := h.idle
  round := fun p hp => by
    have hne : q ≠ p := fun e => by rw [e, hp] at hq; cases hq
    exact (h.round p hp).keep rfl rfl rfl rfl rfl (hk p hne) hd

/-- A step of a process in an operation: nobody commits then, before or after. -/
theorem Inv.inOp (h : Inv s) (hq : (s.ops.procs q).inOp = true) (hops : LogOps.Inv s'.ops)
    (hq' : (s'.ops.procs q).inOp = true) (hline : s'.line = s.line) (hok : Ok s'.mem)
    (ht : ∀ i p, s'.mem.touched i = some p → (s'.ops.procs p).inOp = true)
    (hd : ∀ b, Dirty s'.mem b → b ∈ s'.ops.log.block) : Inv s' where
  ops := hops
  mem := hok
  touched := ht
  dirty := hd
  idle := fun _ => hline.trans (h.idle fun p => h.ops.not_inCommit hq p)
  round := fun p hp => by
    rw [hops.not_inCommit hq' p] at hp
    cases hp

/-- The other processes when `q` moves, and may wake up those that sleep. -/
theorem others {procs procs' : Fin N → LogOps.PState} {x : LogOps.PState}
    (h : procs' = procs ∨ procs' = LogOps.wakeup procs) (p : Fin N) (e : p ≠ q) :
    (update procs' q x p).inOp = (procs p).inOp ∧
    (update procs' q x p).inCommit = (procs p).inCommit ∧
    ((procs p).inCommit = true → update procs' q x p = procs p) := by
  rw [update_of_ne e]
  rcases h with rfl | rfl
  · exact ⟨rfl, rfl, fun _ => rfl⟩
  · rw [LogOps.inOp_wakeup, LogOps.inCommit_wakeup]
    refine ⟨rfl, rfl, fun hp => ?_⟩
    rcases LogOps.wakeup_cases procs p with hw | ⟨hbegin, -⟩
    · exact hw
    · rw [hbegin] at hp
      cases hp

/-- A step of the control state by a process that then is not in `commit`. -/
theorem Inv.move {ops : LogOps.State N} {procs : Fin N → LogOps.PState} {x : LogOps.PState} (h : Inv s)
    (hops : LogOps.Inv ops) (hstart : ops.log.start = s.ops.log.start)
    (hblock : ops.log.block = s.ops.log.block) (hprocs : ops.procs = update procs q x)
    (hold : procs = s.ops.procs ∨ procs = LogOps.wakeup s.ops.procs)
    (hq : (s.ops.procs q).inCommit = false) (hx : x.inCommit = false)
    (ht : x.inOp = true ∨ ∀ i, s.mem.touched i ≠ some q) : Inv { s with ops := ops } where
  ops := hops
  mem := h.mem
  touched := fun i p hi => by
    show (ops.procs p).inOp = true
    rw [hprocs]
    by_cases e : p = q
    · rw [e] at hi ⊢
      rw [update_self]
      exact ht.resolve_right fun hno => hno i hi
    · rw [(others hold p e).1]
      exact h.touched i p hi
  dirty := fun b hb => by
    show b ∈ ops.log.block
    rw [hblock]
    exact h.dirty b hb
  idle := fun hidle => h.idle fun p => by
    by_cases e : p = q
    · rw [e]; exact hq
    · rw [← (others hold p e).2.1, ← hprocs]; exact hidle p
  round := fun p hp => by
    have hp : (ops.procs p).inCommit = true := hp
    rw [hprocs] at hp
    have e : p ≠ q := fun e => by
      rw [e, update_self, hx] at hp
      cases hp
    rw [(others hold p e).2.1] at hp
    have hsame : ops.procs p = s.ops.procs p := by rw [hprocs, (others hold p e).2.2 hp]
    exact (h.round p hp).keep rfl rfl hsame hstart hblock
      ⟨rfl, fun _ _ _ hb => hb, fun _ _ hl hb => ⟨hb, hl⟩⟩ rfl

theorem Inv.not_touched_by (h : Inv s) (hq : (s.ops.procs q).inOp = false) (i : Fin NBUF) :
    s.mem.touched i ≠ some q := fun hi => by
  have := h.touched i q hi
  rw [hq] at this
  cases this

theorem Inv.beginOp {ops : LogOps.State N} (h : Inv s) (hs : LogOps.Step s.ops (.beginOp q) ops) :
    Inv { s with ops := ops } := by
  have hops := LogOps.step_inv hs h.ops
  cases hs with
  | wait hp hw =>
    have hout : (s.ops.procs q).inOp = false ∧ (s.ops.procs q).inCommit = false := by
      rcases hp with hp | hp <;> rw [hp] <;> exact ⟨rfl, rfl⟩
    exact h.move hops rfl rfl rfl (.inl rfl) hout.2 rfl (.inr (h.not_touched_by hout.1))
  | enter hp hw =>
    have hout : (s.ops.procs q).inCommit = false := by
      rcases hp with hp | hp <;> rw [hp] <;> rfl
    exact h.move hops rfl rfl rfl (.inl rfl) hout rfl (.inl rfl)

theorem Inv.kill {ops : LogOps.State N} (h : Inv s) (hs : LogOps.Step s.ops (.kill q) ops) :
    Inv { s with ops := ops } := by
  have hops := LogOps.step_inv hs h.ops
  cases hs with
  | kill hp =>
    exact h.move hops rfl rfl rfl (.inl rfl) (by rw [hp]; rfl) rfl
      (.inr (h.not_touched_by (by rw [hp]; rfl)))

theorem Inv.logCheck {ops : LogOps.State N} (h : Inv s)
    (hs : LogOps.Step s.ops (.logCheck q b) ops) (hn : ops.panic = none) :
    Inv { s with ops := ops } := by
  have hops := LogOps.step_inv hs h.ops
  cases hs with
  | tooBig hp hb => cases hn
  | outside hp ho => cases hn
  | check hp hb => exact h.move hops rfl rfl rfl (.inl rfl) (by rw [hp]; rfl) rfl (.inl rfl)

theorem Inv.endOp {ops : LogOps.State N} (h : Inv s) (hw : s.mem.want q = none)
    (ht : ∀ i, s.mem.touched i ≠ some q) (hs : LogOps.Step s.ops (.endOp q) ops)
    (hn : ops.panic = none) : Inv { s with ops := ops } := by
  have hops := LogOps.step_inv hs h.ops
  cases hs with
  | nested hp hc => cases hn
  | leave hp hc ho => exact h.move hops rfl rfl rfl (.inr rfl) (by rw [hp]; rfl) rfl (.inr ht)
  | last hp hc ho =>
    have hin : (s.ops.procs q).inOp = true := by rw [hp]; rfl
    have hline : s.line = 0 := h.idle fun p => h.ops.not_inCommit hin p
    refine ⟨hops, h.mem, fun i p hi => ?_, h.dirty, fun _ => hline, fun p hp' => ?_⟩
    · have e : p ≠ q := fun e => ht i (e ▸ hi)
      show (update s.ops.procs q _ p).inOp = true
      rw [update_of_ne e]
      exact h.touched i p hi
    · -- the process that commits is `q`, at its first line
      obtain rfl : p = q := by
        by_contra e
        have hp'' : (update s.ops.procs q _ p).inCommit = true := hp'
        rw [update_of_ne e, h.ops.not_inCommit hin p] at hp''
        cases hp''
      have hself : ∀ x, update s.ops.procs p x p = x := fun x => update_self ..
      refine ⟨.inl hline, ?_, fun tail htail => ?_, fun tail b htail => ?_, fun tail b htail => ?_⟩
      · rw [show s.mem.want p = none from hw]
        unfold lines
        dsimp only
        rw [hself, hline]
        cases hblock : s.ops.log.block with
        | nil => rfl
        | cons b r => rfl
      all_goals
        have htail' : update s.ops.procs p _ p = .install tail := htail
        rw [hself] at htail'
        split_ifs at htail'

theorem Inv.modify {d : Block} {o : ℕ} {logged : List ℕ} (h : Inv s)
    (hp : s.ops.procs q = .op o logged) (hl : (s.mem.buf i).lock = some q) :
    Inv { s with mem := Bio.modify s.mem q i d } := by
  have hin : (s.ops.procs q).inOp = true := by rw [hp]; rfl
  have his : (s.mem.buf i).Is ROOTDEV (s.mem.buf i).blockno :=
    ⟨((h.mem.buf i).locked (by rw [hl]; rfl)).1, rfl⟩
  have hw := modify_writes h.mem hl his d
  refine h.inOp hin h.ops hin rfl hw.ok (fun j p hj => ?_) fun c hc => ?_
  · have hj' : update s.mem.touched i (some q) j = some p := hj
    by_cases e : j = i
    · rw [e, update_self] at hj'
      cases hj'
      exact hin
    · rw [update_of_ne e] at hj'
      exact h.touched j p hj'
  · rw [hw.dirty] at hc
    exact h.dirty c hc

theorem Inv.logWrite {o : ℕ} {logged : List ℕ} {ops : LogOps.State N} (h : Inv s)
    (hp : s.ops.procs q = .checked o logged (s.mem.buf i).blockno)
    (hl : (s.mem.buf i).lock = some q) (hs : LogOps.Step s.ops (.logWrite q) ops)
    (hn : ops.panic = none) : Inv { s with ops := ops, mem := mark s.mem i } := by
  have hin : (s.ops.procs q).inOp = true := by rw [hp]; rfl
  have hops := LogOps.step_inv hs h.ops
  have his : (s.mem.buf i).Is ROOTDEV (s.mem.buf i).blockno :=
    ⟨((h.mem.buf i).locked (by rw [hl]; rfl)).1, rfl⟩
  have hw := mark_writes h.mem hl his
  cases hs with
  | outOfBounds hp' => cases hn
  | write hp' =>
    obtain ⟨rfl, rfl, rfl⟩ := LogOps.PState.checked.inj (hp.symm.trans hp')
    have hself : (update s.ops.procs q
        (.op o (logged ++ [(s.mem.buf i).blockno])) q).inOp = true := by
      rw [update_self]
      rfl
    refine h.inOp hin hops hself rfl hw.ok (fun j p hj => ?_) fun c hc => ?_
    · have hj' : update s.mem.touched i none j = some p := hj
      have e : j ≠ i := fun e => by rw [e, update_self] at hj'; cases hj'
      rw [update_of_ne e] at hj'
      show (update s.ops.procs q _ p).inOp = true
      by_cases ep : p = q
      · rw [ep]; exact hself
      · rw [update_of_ne ep]; exact h.touched j p hj'
    · rw [hw.dirty] at hc
      exact LogOps.mem_absorb.mpr (hc.imp_left (h.dirty c))

/-! ## Steps of the process that commits -/

/-- A `bget` is followed by the `acquiresleep` of its buffer, and nothing else is. -/
structure Paired (ls : List Line) : Prop where
  first : ∀ x, ls[0]? ≠ some (.lock x)
  next : ∀ k x b, ls[k]? = some (.bget x b) → ls[k + 1]? = some (.lock x)
  prev : ∀ k x, ls[k + 1]? = some (.lock x) → ∃ b, ls[k]? = some (.bget x b)

theorem paired_copies (x : Bool) (logblock b : ℕ) : Paired (copies x logblock b) where
  first := nofun
  next := fun k y c hk => by
    match k, hk with
    | 0, hk => cases hk; rfl
    | 2, hk => cases hk; rfl
    | 1, hk | 3, hk | 4, hk | 5, hk | 6, hk | _ + 7, hk => cases hk
  prev := fun k y hk => by
    match k, hk with
    | 0, hk => cases hk; exact ⟨_, rfl⟩
    | 2, hk => cases hk; exact ⟨_, rfl⟩
    | 1, hk | 3, hk | 4, hk | 5, hk | _ + 6, hk => cases hk

theorem paired_writesHead (start : ℕ) (block : List ℕ) : Paired (writesHead start block) where
  first := nofun
  next := fun k y c hk => by
    match k, hk with
    | 0, hk => cases hk; rfl
    | 1, hk | 2, hk | 3, hk | _ + 4, hk => cases hk
  prev := fun k y hk => by
    match k, hk with
    | 0, hk => cases hk; exact ⟨_, rfl⟩
    | 1, hk | 2, hk | _ + 3, hk => cases hk

theorem paired_nil : Paired [] := ⟨nofun, nofun, nofun⟩

theorem paired_lines (t : LogOps.State N) (p : Fin N) : Paired (lines t p) := by
  unfold lines
  split
  · split
    · exact paired_copies ..
    · exact paired_writesHead ..
  · split
    · exact paired_copies ..
    · exact paired_nil
  · exact paired_writesHead ..
  · exact paired_nil

/-- The effect of line `l` of the process `p` that commits. -/
structure Executed (s t : State N) (p : Fin N) (l : Line) : Prop where
  ops : t.ops = s.ops
  ok : Ok t.mem
  touched : t.mem.touched = s.mem.touched
  dirty : ∀ c, Dirty t.mem c → Dirty s.mem c
  want : t.mem.want p = match l with
    | .bget x _ => some (t.hand x)
    | _ => none
  found : ∀ x b, l = .bget x b → (t.mem.buf (t.hand x)).Is ROOTDEV b
  taken : ∀ x, l = .lock x → t.hand = s.hand ∧ (t.mem.buf (s.hand x)).lock = some p ∧
    ∀ b, (s.mem.buf (s.hand x)).Is ROOTDEV b → (t.mem.buf (s.hand x)).Is ROOTDEV b
  written : ∀ x, l = .copy x → ∀ b, (s.mem.buf (s.hand x)).Is ROOTDEV b → ¬ Dirty t.mem b

theorem bwrite_executed {d : Block} {x : Bool} (h : Ok s.mem) (hw : s.mem.want p = none)
    (e : bwrite (memmove s.mem (s.hand x) d) p (s.hand x) = .ok m') :
    Ok m' ∧ m'.touched = s.mem.touched ∧ (∀ c, Dirty m' c → Dirty s.mem c) ∧ m'.want p = none ∧
      ∀ b, (s.mem.buf (s.hand x)).Is ROOTDEV b → ¬ Dirty m' b := by
  have hl : (s.mem.buf (s.hand x)).lock = some p := by
    unfold bwrite at e
    split_ifs at e with hl
    rw [not_not] at hl
    have hsame : ((memmove s.mem (s.hand x) d).buf (s.hand x)).lock =
        (s.mem.buf (s.hand x)).lock := by
      unfold memmove
      dsimp only
      rw [update_self]
    exact hsame.symm.trans hl
  have his : (s.mem.buf (s.hand x)).Is ROOTDEV (s.mem.buf (s.hand x)).blockno :=
    ⟨((h.buf _).locked (by rw [hl]; rfl)).1, rfl⟩
  obtain ⟨hwr, ht⟩ := bwrite_writes h hl his e
  refine ⟨hwr.ok, ht, fun c hc => ?_, by rw [hwr.want, hw], fun b hb hc => ?_⟩
  · rw [hwr.dirty] at hc
    exact hc.1
  · rw [hwr.dirty] at hc
    exact hc.2 hb.2.symm

theorem executed {l : Line} {t : State N} (h : Ok s.mem) (ht : ∀ i, s.mem.touched i ≠ some p)
    (hw : s.mem.want p = awaits s.hand (some l)) (e : exec s p l = .ok t) : Executed s t p l := by
  cases l with
  | bget x b =>
    obtain ⟨⟨m, i⟩, hget, e⟩ := bind_eq_ok.mp e
    cases e
    have hf := bget_found h hw hget
    refine ⟨rfl, hf.ok, hf.same.touched, fun c hc => ?_, ?_, ?_, nofun, nofun⟩
    · rwa [hf.same.dirty] at hc
    · show m.want p = some (update s.hand x i x)
      rw [hf.want, update_self, update_self]
    · rintro y c ⟨⟩
      show (m.buf (update s.hand x i x)).Is ROOTDEV b
      rw [update_self]
      exact hf.is
  | lock x =>
    obtain ⟨m, hread, e⟩ := bind_eq_ok.mp e
    cases e
    have hl := lockRead_locked h hw hread
    refine ⟨rfl, hl.ok, hl.same.touched, fun c hc => ?_, ?_, nofun, ?_, nofun⟩
    · rwa [hl.same.dirty] at hc
    · show m.want p = none
      rw [hl.want, update_self]
    · rintro y ⟨⟩
      exact ⟨rfl, hl.lock, hl.is⟩
  | copy x =>
    obtain ⟨m, hwrite, e⟩ := bind_eq_ok.mp e
    cases e
    obtain ⟨hok, htouched, hdirty, hwant, hclean⟩ := bwrite_executed h hw hwrite
    refine ⟨rfl, hok, htouched, hdirty, hwant, nofun, nofun, ?_⟩
    rintro y ⟨⟩
    exact hclean
  | head block =>
    obtain ⟨m, hwrite, e⟩ := bind_eq_ok.mp e
    cases e
    obtain ⟨hok, htouched, hdirty, hwant, -⟩ := bwrite_executed h hw hwrite
    exact ⟨rfl, hok, htouched, hdirty, hwant, nofun, nofun, nofun⟩
  | brelse x =>
    obtain ⟨m, hrel, e⟩ := bind_eq_ok.mp e
    cases e
    obtain ⟨hok, hsame, hwant⟩ := brelse_ok h (ht _) hrel
    refine ⟨rfl, hok, hsame.touched, fun c hc => ?_, ?_, nofun, nofun, nofun⟩
    · rwa [hsame.dirty] at hc
    · show m.want p = none
      rw [hwant]
      exact hw

/-- While `p` commits, it is the only one, and nobody is changing a buffer. -/
theorem Inv.alone (h : Inv s) (hp : (s.ops.procs p).inCommit = true) :
    (∀ i r, s.mem.touched i ≠ some r) ∧ ∀ r, (s.ops.procs r).inCommit = true → r = p := by
  refine ⟨fun i r hi => ?_, fun r hr => h.ops.one r p hr hp⟩
  have := h.ops.not_inCommit (h.touched i r hi) p
  rw [hp] at this
  cases this

/-- The next line of a round. -/
theorem Inv.line {l : Line} {t : State N} (h : Inv s) (hp : (s.ops.procs p).inCommit = true)
    (hl : (lines s.ops p)[s.line]? = some l) (ht : Executed s t p l)
    (hlt : s.line + 1 < (lines s.ops p).length) : Inv { t with line := s.line + 1 } := by
  obtain ⟨hquiet, hone⟩ := h.alone hp
  have hr := h.round p hp
  have hpair := paired_lines s.ops p
  refine ⟨by rw [ht.ops]; exact h.ops, ht.ok, fun i r hi => ?_, fun c hc => ?_, fun hidle => ?_, ?_⟩
  · rw [show t.mem.touched = _ from ht.touched] at hi
    exact absurd hi (hquiet i r)
  · rw [ht.ops]
    exact h.dirty c (ht.dirty c hc)
  · have := hidle p
    rw [show t.ops = _ from ht.ops, hp] at this
    cases this
  intro r hr'
  rw [show t.ops = _ from ht.ops] at hr'
  obtain rfl := hone r hr'
  -- an install round is at the line that its number says
  have hat : ∀ tail b, s.ops.procs r = .install tail → s.ops.log.block[tail]? = some b →
      (copies true (s.ops.log.start + tail + 1) b)[s.line]? = some l := by
    intro tail b htail hb
    unfold lines at hl
    simp only [htail, hb] at hl
    exact hl
  refine ⟨.inr (by rw [ht.ops]; exact hlt), ?_, ?_, ?_, ?_⟩
  · show t.mem.want r = awaits t.hand (lines t.ops r)[s.line + 1]?
    rw [ht.want, ht.ops]
    cases l with
    | bget x b =>
      rw [hpair.next _ _ _ hl]
      rfl
    | lock x | copy x | head block | brelse x =>
      cases hnext : (lines s.ops r)[s.line + 1]? with
      | none => rfl
      | some l' =>
        cases l' with
        | lock y =>
          obtain ⟨b, hb⟩ := hpair.prev _ _ hnext
          rw [hl] at hb
          cases hb
        | bget y b | copy y | head block' | brelse y => rfl
  · intro tail htail c hc
    rw [show t.ops = _ from ht.ops] at htail ⊢
    have hleft := hr.left tail htail c (ht.dirty c hc)
    show c ∈ s.ops.log.block.drop (if s.line + 1 ≤ 4 then tail else tail + 1)
    by_cases h4 : s.line = 4
    · rw [if_pos (by omega)] at hleft
      rw [if_neg (by omega)]
      obtain ⟨k, hk, rfl⟩ := List.mem_iff_getElem.mp hleft
      rw [List.length_drop] at hk
      rw [List.getElem_drop] at hc ⊢
      have hb : s.ops.log.block[tail]? = some s.ops.log.block[tail] :=
        List.getElem?_eq_getElem (by omega)
      obtain rfl : l = .copy true := by
        have := hat tail _ htail hb
        rw [h4] at this
        exact (Option.some.inj this).symm
      -- the block of this round has just been written
      have hclean := ht.written true rfl _ (hr.taken tail _ htail hb h4).1
      have hk0 : k ≠ 0 := by
        rintro rfl
        exact hclean hc
      rw [List.mem_drop_iff_getElem]
      exact ⟨k - 1, by omega, by congr 1; omega⟩
    · by_cases hle : s.line ≤ 4
      · rw [if_pos hle] at hleft
        rw [if_pos (by omega)]
        exact hleft
      · rw [if_neg hle] at hleft
        rw [if_neg (by omega)]
        exact hleft
  · intro tail b htail hb h3
    rw [show t.ops = _ from ht.ops] at htail hb
    have h2 : s.line = 2 := Nat.succ.inj h3
    have := hat tail b htail hb
    rw [h2] at this
    exact ht.found true b (Option.some.inj this).symm
  · intro tail b htail hb h4
    rw [show t.ops = _ from ht.ops] at htail hb
    have h3 : s.line = 3 := Nat.succ.inj h4
    have := hat tail b htail hb
    rw [h3] at this
    obtain ⟨hhand, hlock, his⟩ := ht.taken true (Option.some.inj this).symm
    show (t.mem.buf (t.hand true)).Is ROOTDEV b ∧ (t.mem.buf (t.hand true)).lock = some r
    rw [hhand]
    exact ⟨his b (hr.found tail b htail hb h3), hlock⟩

/-- The step of the control state behind the last line. -/
theorem Inv.advance {ops : LogOps.State N} (h : Inv s) (hand : Bool → Fin NBUF)
    (hp : (s.ops.procs p).inCommit = true) (hok : Ok m') (ht : m'.touched = s.mem.touched)
    (hd : ∀ c, Dirty m' c → Dirty s.mem c) (hw : m'.want p = none)
    (hleft : ∀ tail, s.ops.procs p = .install tail → ∀ c, Dirty m' c →
      c ∈ s.ops.log.block.drop (tail + 1)) (hs : LogOps.Step s.ops (.commit p) ops) :
    Inv { s with ops := ops, mem := m', line := 0, hand := hand } := by
  obtain ⟨hquiet, hone⟩ := h.alone hp
  have hops := LogOps.step_inv hs h.ops
  have hother : ∀ r, (ops.procs r).inCommit = true → r = p := by
    intro r hr
    by_contra e
    refine e (hone r ?_)
    cases hs with
    | writeLog _ _ | head _ _ | install _ _ | clear _ _ | clearHead _ =>
      exact (others (.inl rfl) r e).2.1 ▸ hr
    | done _ => exact (others (.inr rfl) r e).2.1 ▸ hr
  have hdirty : ∀ c, Dirty m' c → c ∈ ops.log.block := by
    intro c hc
    cases hs with
    | writeLog _ _ | head _ _ | install _ _ | clearHead _ | done _ => exact h.dirty c (hd c hc)
    | clear hp' htail =>
      have := hleft _ hp' c hc
      rw [List.drop_eq_nil_of_le (by omega)] at this
      cases this
  refine ⟨hops, hok, fun i r hi => ?_, hdirty, fun _ => rfl, fun r hr => ?_⟩
  · rw [show m'.touched = _ from ht] at hi
    exact absurd hi (hquiet i r)
  · obtain rfl := hother r hr
    refine ⟨.inl rfl, ?_, fun tail htail c hc => ?_, nofun, nofun⟩
    · show m'.want r = awaits hand (lines ops r)[0]?
      rw [hw]
      cases hfirst : (lines ops r)[0]? with
      | none => rfl
      | some l =>
        cases l with
        | lock x => exact absurd hfirst ((paired_lines ops r).first x)
        | bget x b | copy x | head block | brelse x => rfl
    · show c ∈ ops.log.block.drop tail
      have hself : ∀ (f : Fin N → LogOps.PState) x, update f r x r = x :=
        fun f x => update_self ..
      have htail : ops.procs r = .install tail := htail
      cases hs with
      | writeLog _ _ | clear _ _ | clearHead _ | done _ => exact nomatch (hself _ _).symm.trans htail
      | head _ _ =>
        cases (hself _ _).symm.trans htail
        exact h.dirty c (hd c hc)
      | install hp' _ =>
        cases (hself _ _).symm.trans htail
        exact hleft _ hp' c hc

/-! ## Every run -/

/-- A `bget` for block `b` finds its buffer, or another is left besides those that are referenced and
those that `log.lh` needs. -/
def Room (s : State N) (b : ℕ) : Prop :=
  Cached s.mem b ∨ refs s.mem + s.ops.log.block.length < NBUF

instance : Decidable (Room s b) := inferInstanceAs (Decidable (_ ∨ _))

/-- There is room for every `bget` of a step. -/
def HasBuffer (s : State N) : Fin N × ProcAct → Prop
  | (_, .bget b) => Room s b
  | (p, .commit) =>
    match (lines s.ops p)[s.line]? with
    | some (.bget _ b) => Room s b
    | _ => True
  | _ => True

theorem Inv.finds (h : Inv s) (hroom : Room s b) : Finds (Bio.bget s.mem p ROOTDEV b) :=
  bget_finds h.mem (hroom.imp_right fun hlt => ⟨h.mem, h.dirty, hlt⟩)

theorem exec_finds {l : Line} (h : Inv s) (hroom : ∀ x b, l = .bget x b → Room s b) :
    Finds (exec s p l) := by
  cases l with
  | bget x b => exact (h.finds (hroom x b rfl)).bind fun _ _ => nofun
  | lock x => exact lockRead_finds.bind fun _ _ => nofun
  | copy x => exact bwrite_finds.bind fun _ _ => nofun
  | head block => exact bwrite_finds.bind fun _ _ => nofun
  | brelse x => exact brelse_finds.bind fun _ _ => nofun

/-- What holds in every state: the invariant, unless the kernel has stopped, and then not for want
of a buffer. -/
def Good (s : State N) : Prop :=
  s.halted ≠ some .noBuffers ∧ (s.ops.panic = none → s.halted = none → Inv s)

theorem Good.of_inv (h : Inv s) (hh : s.halted = none) : Good s :=
  ⟨by rw [hh]; exact nofun, fun _ _ => h⟩

/-- A call of the cache that does not run out. -/
theorem call_good {α : Type} {r : Except Stop α} {k : α → Option (State N)} (hr : Finds r)
    (hk : ∀ a, r = .ok a → k a = some s' → Good s') (h : s.call r k = some s') : Good s' := by
  unfold State.call at h
  cases r with
  | ok a => exact hk a rfl h
  | error e =>
    cases e with
    | sleep => cases h
    | panic e =>
      cases h
      refine ⟨fun he => hr ?_, fun _ hn => nomatch hn⟩
      cases he
      rfl

theorem log_good {a : LogOps.Act N} (hh : s.halted = none)
    (hk : ∀ ops, LogOps.Step s.ops a ops → ops.panic = none → Inv { s with ops := ops })
    (h : s.log a = some s') : Good s' := by
  obtain ⟨ops, hops, rfl⟩ := Option.map_eq_some_iff.mp h
  have hstep := (LogOps.step_of_step hops).2
  refine ⟨?_, fun hn _ => hk ops hstep hn⟩
  show s.halted ≠ _
  rw [hh]
  exact nofun

theorem commit_good (h : Inv s) (hh : s.halted = none) (hroom : HasBuffer s (p, .commit))
    (hs : commit s p = some s') : Good s' := by
  unfold commit at hs
  cases hl : (lines s.ops p)[s.line]? with
  | none =>
    rw [hl] at hs
    refine log_good hh (fun ops hstep _ => ?_) hs
    have hp : (s.ops.procs p).inCommit = true := by cases hstep <;> simp_all [LogOps.PState.inCommit]
    have hr := h.round p hp
    have hline : s.line = 0 := hr.line.resolve_right fun hlt => by
      rw [List.getElem?_eq_getElem hlt] at hl
      cases hl
    have hadv := h.advance s.hand hp h.mem rfl (fun _ => id)
      (by rw [hr.want, hl]; rfl) (fun tail htail c hc => ?_) hstep
    · rwa [← hline] at hadv
    · -- nothing is left to install
      have hleft := hr.left tail htail c hc
      rw [if_pos (by omega)] at hleft
      have hnone : s.ops.log.block[tail]? = none := by
        cases hb : s.ops.log.block[tail]? with
        | none => rfl
        | some b =>
          unfold lines at hl
          simp only [htail, hb, hline] at hl
          cases hl
      rw [List.drop_eq_nil_of_le (List.getElem?_eq_none_iff.mp hnone)] at hleft
      cases hleft
  | some l =>
    rw [hl] at hs
    have hp : (s.ops.procs p).inCommit = true := by
      unfold lines at hl
      cases hpp : s.ops.procs p <;> simp_all [LogOps.PState.inCommit]
    have hr := h.round p hp
    obtain ⟨hquiet, -⟩ := h.alone hp
    have hfinds : Finds (exec s p l) := by
      refine exec_finds h fun x b e => ?_
      unfold HasBuffer at hroom
      dsimp only at hroom
      rw [hl, e] at hroom
      exact hroom
    refine call_good hfinds (fun t ht hk => ?_) hs
    have hex := executed h.mem (fun i => hquiet i p) (by rw [hr.want, hl]) ht
    have hhalt : t.halted = none := by
      rw [← hh]
      cases l <;> (obtain ⟨_, -, e⟩ := bind_eq_ok.mp ht; cases e; rfl)
    by_cases hlt : s.line + 1 < (lines s.ops p).length
    · rw [if_pos hlt] at hk
      cases hk
      exact .of_inv (h.line hp hl hex hlt) hhalt
    · rw [if_neg hlt] at hk
      refine log_good (s := { t with line := 0 }) hhalt (fun ops hstep _ => ?_) hk
      have hstep : LogOps.Step s.ops (.commit p) ops := hex.ops ▸ hstep
      have hnext : (lines s.ops p)[s.line + 1]? = none :=
        List.getElem?_eq_none_iff.mpr (Nat.le_of_not_lt hlt)
      have hwant : t.mem.want p = none := by
        rw [hex.want]
        cases l with
        | bget x b =>
          rw [(paired_lines s.ops p).next _ _ _ hl] at hnext
          cases hnext
        | lock x | copy x | head block | brelse x => rfl
      have hadv := h.advance t.hand hp hex.ok hex.touched hex.dirty hwant
        (fun tail htail c hc => ?_) hstep
      · have heq : t.halted = s.halted := hhalt.trans hh.symm
        rwa [← heq] at hadv
      · -- behind the last line of a round its block is installed
        have hleft := hr.left tail htail c (hex.dirty c hc)
        have hlen : 6 ≤ s.line := by
          unfold lines at hl hlt
          simp only [htail] at hl hlt
          cases hb : s.ops.log.block[tail]? with
          | none =>
            simp only [hb] at hl
            cases hl
          | some b =>
            simp only [hb, copies, List.length_cons, List.length_nil] at hlt
            omega
        rwa [if_neg (by omega)] at hleft

theorem step_good {a : Fin N × ProcAct} (h : Good s) (hroom : HasBuffer s a)
    (hs : step s a = some s') : Good s' := by
  obtain ⟨p, a⟩ := a
  unfold step at hs
  split_ifs at hs with hstop
  rw [not_or, Bool.not_eq_true, Bool.not_eq_true, Option.isSome_eq_false_iff,
    Option.isSome_eq_false_iff, Option.isNone_iff_eq_none, Option.isNone_iff_eq_none] at hstop
  have hI := h.2 hstop.1 hstop.2
  have hh := hstop.2
  unfold procStep at hs
  cases a with
  | beginOp =>
    dsimp only at hs
    split_ifs at hs with hw
    exact log_good hh (fun ops hstep _ => hI.beginOp hstep) hs
  | bget b =>
    dsimp only at hs
    split_ifs at hs with hw
    refine call_good (hI.finds hroom) (fun ⟨m, i⟩ hget hk => ?_) hs
    cases hk
    have hf := bget_found hI.mem hw.1 hget
    exact .of_inv (hI.cache (Running.not_inCommit hw.2) hf.ok hf.same.dirty hf.same.touched
      fun _ e => bget_keeps hI.mem e hget) hh
  | lock =>
    dsimp only at hs
    cases hw : s.mem.want p with
    | none => rw [hw] at hs; cases hs
    | some i =>
      rw [hw] at hs
      dsimp only at hs
      split_ifs at hs with hrun
      refine call_good lockRead_finds (fun m hread hk => ?_) hs
      cases hk
      have hl := lockRead_locked hI.mem hw hread
      exact .of_inv (hI.cache (Running.not_inCommit hrun) hl.ok hl.same.dirty hl.same.touched
        fun _ e => lockRead_keeps hI.mem e hread) hh
  | modify i d =>
    dsimp only at hs
    split at hs
    · next o logged hp =>
      split_ifs at hs with hl
      cases hs
      exact .of_inv (hI.modify hp hl.2) hh
    · cases hs
  | logCheck i =>
    dsimp only at hs
    split_ifs at hs with hl
    exact log_good hh (fun ops hstep hn => hI.logCheck hstep hn) hs
  | logWrite i =>
    dsimp only at hs
    split at hs
    · next o logged b hp =>
      split_ifs at hs with hl
      obtain ⟨ops, hops, rfl⟩ := Option.map_eq_some_iff.mp hs
      have hstep := (LogOps.step_of_step hops).2
      refine ⟨by show s.halted ≠ _; rw [hh]; exact nofun, fun hn _ => ?_⟩
      have hn : ops.panic = none := hn
      rw [hn, Option.isSome_none, if_neg Bool.false_ne_true]
      exact hI.logWrite (hl.2 ▸ hp) hl.1 hstep hn
    · cases hs
  | brelse i =>
    dsimp only at hs
    split_ifs at hs with hw
    refine call_good brelse_finds (fun m hrel hk => ?_) hs
    cases hk
    obtain ⟨hok, hsame, -⟩ := brelse_ok hI.mem hw.2.2 hrel
    exact .of_inv (hI.cache (Running.not_inCommit hw.2.1) hok hsame.dirty hsame.touched
      fun _ e => brelse_keeps e hrel) hh
  | endOp =>
    dsimp only at hs
    split_ifs at hs with hw
    exact log_good hh (fun ops hstep hn => hI.endOp hw.1 hw.2 hstep hn) hs
  | commit => exact commit_good hI hh hroom hs
  | kill => exact log_good hh (fun ops hstep _ => hI.kill hstep) hs

/-- In every run in which there is room for each `bget`, no `bget` panics. -/
theorem bget_finds_buffer {s₀ s : State N} {as : List (Fin N × ProcAct)} (h₀ : s₀.Init)
    (hm : Meets step HasBuffer s₀ as) (h : run step s₀ as = some s) :
    s.halted ≠ some .noBuffers :=
  (run_invariant (I := Good) (fun _ _ _ => step_good)
    (.of_inv (Inv.init h₀) h₀.halted) hm h).1

def ready (N : ℕ) : State N where
  ops := LogOps.init N 2
  mem := binit fun _ _ => 0
  line := 0
  hand := fun _ => ⟨0, nbuf_pos⟩
  halted := none

theorem ready_init : (ready N).Init where
  ops := ⟨2, rfl⟩
  mem := binit_ok _
  clean := fun b => by
    rintro ⟨i, -, hi⟩
    cases hi
  touched := fun _ => rfl
  line := rfl
  halted := rfl

local instance twoProcesses : NeZero 2 := ⟨Nat.succ_ne_zero 1⟩

/-- A process reads a block while another commits one. -/
def readAndCommit : List (Fin 2 × ProcAct) :=
  let i : Fin NBUF := ⟨0, nbuf_pos⟩
  [(0, .beginOp), (0, .bget 50), (0, .lock), (0, .modify i fun _ => 7), (0, .logCheck i),
    (0, .logWrite i), (0, .brelse i), (0, .endOp), (0, .commit), (0, .commit), (1, .bget 60),
    (0, .commit)]

instance (s : State N) (a : Fin N × ProcAct) : Decidable (HasBuffer s a) := by
  unfold HasBuffer
  split
  · infer_instance
  · split <;> infer_instance
  · infer_instance

theorem bget_finds_buffer_readAndCommit :
    ∃ s, run step (ready 2) readAndCommit = some s ∧ s.line = 3 ∧ s.halted ≠ some .noBuffers := by
  have hrun : (run step (ready 2) readAndCommit).map (fun s => s.line) = some 3 := by decide +kernel
  obtain ⟨s, hs, hline⟩ := Option.map_eq_some_iff.mp hrun
  exact ⟨s, hs, hline, bget_finds_buffer ready_init (by decide +kernel) hs⟩

/-- 31 processes read one block each, none of them in a transaction. -/
def manyReads : List (Fin 31 × ProcAct) := (List.finRange 31).map fun p => (p, .bget (100 + p))

theorem reads_exhaust_cache :
    (run step (ready 31) manyReads).map State.halted = some (some .noBuffers) := by
  decide +kernel

end DuckoUnix.LogBuffers
