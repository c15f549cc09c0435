import DuckoUnix.Lib.RedoLog
import DuckoUnix.Log.Disk
import DuckoUnix.Log.Isolation

/-!
# The log, the buffer cache and a disk that survives crashes

Processes run `begin_op`, read blocks, change and `log_write` them, and run `end_op`; the last one
commits. The control state is that of `DuckoUnix.LogOps`, whose steps this machine takes; the
blocks go through the buffer cache. A round of a loop of `commit` or of `recover_from_log` makes
one disk write and is one step; no process is inside an operation meanwhile.

A crash can come at any time. It leaves the disk alone and starts the kernel over, which runs
`recover_from_log` before anything else. A kernel that panicked waits for that.

Callers of `log_write` keep to its rule: who has changed the data of a buffer calls `log_write` on
it before `brelse` and before `end_op`.
-/

namespace DuckoUnix.LogCrash

open Lib Bio LogDisk Function

/-- How far `recover_from_log` has come. -/
inductive Stage
  | readHead
  /-- in `install_trans`, or about to write the empty header when `tail` has reached `n` -/
  | install (tail : ℕ)
  | ready
  deriving DecidableEq

/-- The kernel and the disk. `history` records the stores into buffers, the headers of committed
transactions that reached the disk, and the crashes; no code reads it. -/
structure State (N : ℕ) where
  ops : LogOps.State N
  mem : Mem N
  stage : Stage
  halted : Option Panic
  history : List (Event ℕ Block)

variable {N : ℕ}

def State.Stopped (s : State N) : Prop := s.ops.panic.isSome = true ∨ s.halted.isSome = true

instance (s : State N) : Decidable s.Stopped := inferInstanceAs (Decidable (_ ∨ _))

/-- The kernel starts: nothing is cached, nothing logged. -/
def boot (N start : ℕ) (disk : ℕ → Block) (history : List (Event ℕ Block)) : State N where
  ops := LogOps.init N start
  mem := binit disk
  stage := .readHead
  halted := none
  history := history

inductive ProcAct
  | beginOp
  /-- call `bread` and have `bget` find a buffer for block `b` -/
  | bget (b : ℕ)
  /-- lock that buffer and read the block -/
  | lock
  /-- store into the data of a locked buffer -/
  | modify (i : Fin NBUF) (d : Block)
  /-- call `log_write` on a locked buffer and make its checks -/
  | logCheck (i : Fin NBUF)
  /-- the section of `log_write` under the lock -/
  | logWrite (i : Fin NBUF)
  | brelse (i : Fin NBUF)
  | endOp
  /-- the next step of `commit` -/
  | commit
  /-- `kill` ends a sleep in `begin_op` -/
  | kill

inductive Act (N : ℕ)
  | proc (p : Fin N) (a : ProcAct)
  /-- the process that runs `initlog` takes the next step of `recover_from_log` -/
  | recover (p : Fin N)
  | crash

def State.call {α : Type} (s : State N) (r : Except Stop α) (k : α → State N) :
    Option (State N) :=
  match r with
  | .ok a => some (k a)
  | .error .sleep => none
  | .error (.panic e) => some { s with halted := some e }

def State.log (s : State N) (a : LogOps.Act N) : Option (State N) :=
  (LogOps.step s.ops a).map fun ops => { s with ops := ops }

/-- The process is in code that may call `bread` and `brelse`. -/
def Running : LogOps.PState → Prop
  | .idle | .op _ _ => True
  | _ => False

instance (x : LogOps.PState) : Decidable (Running x) := by unfold Running; split <;> infer_instance

/-- The next step of `commit`. -/
def commit (s : State N) (p : Fin N) : Option (State N) :=
  let l := s.ops.log
  match s.ops.procs p with
  | .writeLog tail =>
    match l.block[tail]? with
    | some b =>
      (LogOps.step s.ops (.commit p)).bind fun ops =>
        s.call (writeLog s.mem p (l.start + tail + 1) b) fun m => { s with ops := ops, mem := m }
    | none =>
      (LogOps.step s.ops (.commit p)).bind fun ops =>
        s.call (writeHead s.mem p l.start l.block) fun m =>
          { s with ops := ops, mem := m, history := s.history ++ [.commit] }
  | .install tail =>
    match l.block[tail]? with
    | some b =>
      (LogOps.step s.ops (.commit p)).bind fun ops =>
        s.call (installTrans s.mem p (l.start + tail + 1) b) fun m =>
          { s with ops := ops, mem := m }
    | none => s.log (.commit p)
  | .clearHead =>
    (LogOps.step s.ops (.commit p)).bind fun ops =>
      s.call (writeHead s.mem p l.start l.block) fun m => { s with ops := ops, mem := m }
  | _ => s.log (.commit p)

/-- The log with another header in memory. -/
def withBlock (ops : LogOps.State N) (block : List ℕ) : LogOps.State N :=
  { ops with log := { ops.log with block := block } }

/-- The next step of `recover_from_log`. -/
def recover (s : State N) (p : Fin N) : Option (State N) :=
  let l := s.ops.log
  match s.stage with
  | .readHead =>
    s.call (readHead s.mem p l.start) fun (m, block) =>
      { s with ops := withBlock s.ops block, mem := m, stage := .install 0 }
  | .install tail =>
    match l.block[tail]? with
    | some b =>
      s.call (installTrans s.mem p (l.start + tail + 1) b) fun m =>
        { s with mem := m, stage := .install (tail + 1) }
    | none =>
      s.call (writeHead s.mem p l.start []) fun m =>
        { s with ops := withBlock s.ops [], mem := m, stage := .ready }
  | .ready => none

/-- A step of process `p`. A process that waits for a buffer does nothing else. -/
def procStep (s : State N) (p : Fin N) : ProcAct → Option (State N)
  | .beginOp => if s.mem.want p = none then s.log (.beginOp p) else none
  | .bget b =>
    if s.mem.want p = none ∧ Running (s.ops.procs p) then
      s.call (Bio.bget s.mem p ROOTDEV b) fun (m, _) => { s with mem := m }
    else none
  | .lock =>
    match s.mem.want p with
    | some i => s.call (lockRead s.mem p i) fun m => { s with mem := m }
    | none => none
  | .modify i d =>
    match s.ops.procs p with
    | .op _ _ =>
      if s.mem.want p = none ∧ (s.mem.buf i).lock = some p then
        some { s with
          mem := Bio.modify s.mem p i d
          history := s.history ++ [.update (s.mem.buf i).blockno d] }
      else none
    | _ => none
  | .logCheck i =>
    if s.mem.want p = none ∧ (s.mem.buf i).lock = some p then
      s.log (.logCheck p (s.mem.buf i).blockno)
    else none
  | .logWrite i =>
    match s.ops.procs p with
    | .checked _ _ b =>
      if (s.mem.buf i).lock = some p ∧ (s.mem.buf i).blockno = b then
        (LogOps.step s.ops (.logWrite p)).map fun ops =>
          { s with ops := ops, mem := if ops.panic.isSome then s.mem else mark s.mem i }
      else none
    | _ => none
  | .brelse i =>
    if s.mem.want p = none ∧ Running (s.ops.procs p) ∧ s.mem.touched i ≠ some p then
      s.call (Bio.brelse s.mem p i) fun m => { s with mem := m }
    else none
  | .endOp =>
    if s.mem.want p = none ∧ ∀ i, s.mem.touched i ≠ some p then s.log (.endOp p) else none
  | .commit => commit s p
  | .kill => s.log (.kill p)

def step (s : State N) : Act N → Option (State N)
  | .proc p a => if s.Stopped ∨ s.stage ≠ .ready then none else procStep s p a
  | .recover p => if s.Stopped then none else recover s p
  | .crash => some (boot N s.ops.log.start s.mem.disk (s.history ++ [.crash]))

/-! ## What a step can be -/

/-- Every step of a process, with what it needs and the state it leaves. -/
inductive ProcStep (s : State N) (p : Fin N) : ProcAct → State N → Prop
  /-- a panic of the buffer cache or the disk driver -/
  | halt {a e} : ProcStep s p a { s with halted := some e }
  | beginOp {ops} (h : LogOps.Step s.ops (.beginOp p) ops) : ProcStep s p .beginOp { s with ops := ops }
  | kill {ops} (h : LogOps.Step s.ops (.kill p) ops) : ProcStep s p .kill { s with ops := ops }
  | bget {b m i} (hw : s.mem.want p = none) (hp : Running (s.ops.procs p))
      (h : Bio.bget s.mem p ROOTDEV b = .ok (m, i)) : ProcStep s p (.bget b) { s with mem := m }
  | lock {i m} (hw : s.mem.want p = some i) (h : lockRead s.mem p i = .ok m) :
      ProcStep s p .lock { s with mem := m }
  | modify {i d o logged} (hp : s.ops.procs p = .op o logged) (hl : (s.mem.buf i).lock = some p) :
      ProcStep s p (.modify i d) { s with
        mem := Bio.modify s.mem p i d
        history := s.history ++ [.update (s.mem.buf i).blockno d] }
  | logCheck {i ops} (hl : (s.mem.buf i).lock = some p)
      (h : LogOps.Step s.ops (.logCheck p (s.mem.buf i).blockno) ops) :
      ProcStep s p (.logCheck i) { s with ops := ops }
  | logWrite {i o logged} (hp : s.ops.procs p = .checked o logged (s.mem.buf i).blockno)
      (hl : (s.mem.buf i).lock = some p) :
      ProcStep s p (.logWrite i) { s with
        ops := { s.ops with
          log := { s.ops.log with block := LogOps.absorb s.ops.log.block (s.mem.buf i).blockno }
          procs := update s.ops.procs p (.op o (logged ++ [(s.mem.buf i).blockno]))
          events := s.ops.events ++ [.logged o (s.mem.buf i).blockno] }
        mem := mark s.mem i }
  /-- the store past the end of `log.lh.block` -/
  | outOfBounds {i o logged} (hp : s.ops.procs p = .checked o logged (s.mem.buf i).blockno)
      (hl : (s.mem.buf i).lock = some p)
      (hb : (s.mem.buf i).blockno ∉ s.ops.log.block) (hn : LOGSIZE ≤ s.ops.log.block.length) :
      ProcStep s p (.logWrite i) { s with ops := { s.ops with panic := some .outOfBounds } }
  | brelse {i m} (hw : s.mem.want p = none) (hp : Running (s.ops.procs p))
      (ht : s.mem.touched i ≠ some p) (h : Bio.brelse s.mem p i = .ok m) :
      ProcStep s p (.brelse i) { s with mem := m }
  | endOp {ops} (hw : s.mem.want p = none) (ht : ∀ i, s.mem.touched i ≠ some p)
      (h : LogOps.Step s.ops (.endOp p) ops) : ProcStep s p .endOp { s with ops := ops }
  | writeLog {tail b m} (hp : s.ops.procs p = .writeLog tail) (hb : s.ops.log.block[tail]? = some b)
      (h : writeLog s.mem p (s.ops.log.start + tail + 1) b = .ok m) :
      ProcStep s p .commit { s with
        ops := { s.ops with procs := update s.ops.procs p (.writeLog (tail + 1)) }
        mem := m }
  | head {tail m} (hp : s.ops.procs p = .writeLog tail) (hb : s.ops.log.block[tail]? = none)
      (h : writeHead s.mem p s.ops.log.start s.ops.log.block = .ok m) :
      ProcStep s p .commit { s with
        ops := { s.ops with
          procs := update s.ops.procs p (.install 0)
          events := s.ops.events ++ [.commit s.ops.log.block] }
        mem := m
        history := s.history ++ [.commit] }
  | install {tail b m} (hp : s.ops.procs p = .install tail) (hb : s.ops.log.block[tail]? = some b)
      (h : installTrans s.mem p (s.ops.log.start + tail + 1) b = .ok m) :
      ProcStep s p .commit { s with
        ops := { s.ops with procs := update s.ops.procs p (.install (tail + 1)) }
        mem := m }
  | clear {tail} (hp : s.ops.procs p = .install tail) (hb : s.ops.log.block[tail]? = none) :
      ProcStep s p .commit { s with
        ops := { s.ops with
          log := { s.ops.log with block := [] }
          procs := update s.ops.procs p .clearHead } }
  | clearHead {m} (hp : s.ops.procs p = .clearHead)
      (h : writeHead s.mem p s.ops.log.start s.ops.log.block = .ok m) :
      ProcStep s p .commit { s with
        ops := { s.ops with procs := update s.ops.procs p .done }
        mem := m }
  | done (hp : s.ops.procs p = .done) :
      ProcStep s p .commit { s with
        ops := { s.ops with
          log := { s.ops.log with committing := false }
          procs := update (LogOps.wakeup s.ops.procs) p .idle } }

/-- Every step of `recover_from_log`. -/
inductive RecoverStep (s : State N) (p : Fin N) : State N → Prop
  | halt {e} : RecoverStep s p { s with halted := some e }
  | readHead {m block} (hs : s.stage = .readHead)
      (h : readHead s.mem p s.ops.log.start = .ok (m, block)) :
      RecoverStep s p { s with ops := withBlock s.ops block, mem := m, stage := .install 0 }
  | install {tail b m} (hs : s.stage = .install tail) (hb : s.ops.log.block[tail]? = some b)
      (h : installTrans s.mem p (s.ops.log.start + tail + 1) b = .ok m) :
      RecoverStep s p { s with mem := m, stage := .install (tail + 1) }
  | clear {tail m} (hs : s.stage = .install tail) (hb : s.ops.log.block[tail]? = none)
      (h : writeHead s.mem p s.ops.log.start [] = .ok m) :
      RecoverStep s p { s with ops := withBlock s.ops [], mem := m, stage := .ready }

theorem call_eq_some {α : Type} {s s' : State N} {r : Except Stop α} {k : α → State N}
    (h : s.call r k = some s') :
    (∃ a, r = .ok a ∧ s' = k a) ∨ ∃ e, s' = { s with halted := some e } := by
  unfold State.call at h
  split at h
  · next a => cases h; exact Or.inl ⟨a, rfl, rfl⟩
  · cases h
  · next e => cases h; exact Or.inr ⟨e, rfl⟩

theorem log_eq_some {s s' : State N} {a : LogOps.Act N} (h : s.log a = some s') :
    ∃ ops, LogOps.step s.ops a = some ops ∧ s' = { s with ops := ops } := by
  obtain ⟨ops, hops, rfl⟩ := Option.map_eq_some_iff.mp h
  exact ⟨ops, hops, rfl⟩

theorem recover_step {s s' : State N} {p : Fin N} (h : recover s p = some s') :
    s.stage ≠ .ready ∧ RecoverStep s p s' := by
  unfold recover at h
  cases hs : s.stage with
  | readHead =>
    simp only [hs] at h
    rcases call_eq_some h with ⟨⟨m, block⟩, hm, rfl⟩ | ⟨e, rfl⟩
    · exact ⟨nofun, .readHead hs hm⟩
    · exact ⟨nofun, .halt⟩
  | install tail =>
    simp only [hs] at h
    cases hb : s.ops.log.block[tail]? with
    | some b =>
      simp only [hb] at h
      rcases call_eq_some h with ⟨m, hm, rfl⟩ | ⟨e, rfl⟩
      · exact ⟨nofun, .install hs hb hm⟩
      · exact ⟨nofun, .halt⟩
    | none =>
      simp only [hb] at h
      rcases call_eq_some h with ⟨m, hm, rfl⟩ | ⟨e, rfl⟩
      · exact ⟨nofun, .clear hs hb hm⟩
      · exact ⟨nofun, .halt⟩
  | ready => simp only [hs] at h; cases h

theorem log_step_commit {s : LogOps.State N} (hn : s.panic = none) (p : Fin N) :
    LogOps.step s (.commit p) = LogOps.commit s p := by
  unfold LogOps.step
  rw [hn]
  rfl

theorem commit_step {s s' : State N} {p : Fin N} (hn : s.ops.panic = none)
    (h : commit s p = some s') : ProcStep s p .commit s' := by
  unfold commit at h
  simp only [State.log, log_step_commit hn] at h
  unfold LogOps.commit at h
  cases hp : s.ops.procs p with
  | writeLog tail =>
    simp only [hp] at h
    cases hb : s.ops.log.block[tail]? with
    | some b =>
      simp only [hb, if_pos (List.getElem?_eq_some_iff.mp hb).1, Option.bind_some] at h
      rcases call_eq_some h with ⟨m, hm, rfl⟩ | ⟨e, rfl⟩
      · exact .writeLog hp hb hm
      · exact .halt
    | none =>
      simp only [hb, if_neg (Nat.not_lt.mpr (List.getElem?_eq_none_iff.mp hb)),
        Option.bind_some] at h
      rcases call_eq_some h with ⟨m, hm, rfl⟩ | ⟨e, rfl⟩
      · exact .head hp hb hm
      · exact .halt
  | install tail =>
    simp only [hp] at h
    cases hb : s.ops.log.block[tail]? with
    | some b =>
      simp only [hb, if_pos (List.getElem?_eq_some_iff.mp hb).1, Option.bind_some] at h
      rcases call_eq_some h with ⟨m, hm, rfl⟩ | ⟨e, rfl⟩
      · exact .install hp hb hm
      · exact .halt
    | none =>
      simp only [hb, if_neg (Nat.not_lt.mpr (List.getElem?_eq_none_iff.mp hb)),
        Option.map_some] at h
      cases h
      exact .clear hp hb
  | clearHead =>
    simp only [hp, Option.bind_some] at h
    rcases call_eq_some h with ⟨m, hm, rfl⟩ | ⟨e, rfl⟩
    · exact .clearHead hp hm
    · exact .halt
  | done => simp only [hp, Option.map_some] at h; cases h; exact .done hp
  | idle => simp only [hp, Option.map_none] at h; cases h
  | begin asleep => simp only [hp, Option.map_none] at h; cases h
  | op o logged => simp only [hp, Option.map_none] at h; cases h
  | checked o logged b => simp only [hp, Option.map_none] at h; cases h

theorem logWrite_step {s s' : State N} {p : Fin N} {i : Fin NBUF} (hn : s.ops.panic = none)
    (h : procStep s p (.logWrite i) = some s') : ProcStep s p (.logWrite i) s' := by
  simp only [procStep] at h
  split at h
  · next o logged b hp =>
    split_ifs at h with hc
    obtain ⟨hl, rfl⟩ := hc
    have hstep : LogOps.step s.ops (.logWrite p) =
        some (LogOps.logWrite s.ops p o logged (s.mem.buf i).blockno) := by
      unfold LogOps.step
      rw [hn]
      simp only [Option.isSome_none, Bool.false_eq_true, if_false, hp]
    rw [hstep, Option.map_some] at h
    unfold LogOps.logWrite at h
    by_cases hb : (s.mem.buf i).blockno ∉ s.ops.log.block ∧ LOGSIZE ≤ s.ops.log.block.length
    · rw [if_pos hb] at h
      cases h
      exact .outOfBounds hp hl hb.1 hb.2
    · have hn' : ¬ s.ops.panic.isSome = true := by rw [hn]; nofun
      rw [if_neg hb, if_neg hn'] at h
      cases h
      exact .logWrite hp hl
  · cases h

theorem procStep_step {s s' : State N} {p : Fin N} {a : ProcAct} (hn : s.ops.panic = none)
    (h : procStep s p a = some s') : ProcStep s p a s' := by
  cases a with
  | beginOp =>
    simp only [procStep] at h
    split_ifs at h
    obtain ⟨ops, hops, rfl⟩ := log_eq_some h
    exact .beginOp (LogOps.step_of_step hops).2
  | bget b =>
    simp only [procStep] at h
    split_ifs at h with hc
    rcases call_eq_some h with ⟨⟨m, i⟩, hm, rfl⟩ | ⟨e, rfl⟩
    · exact .bget hc.1 hc.2 hm
    · exact .halt
  | lock =>
    simp only [procStep] at h
    split at h
    · next i hw =>
      rcases call_eq_some h with ⟨m, hm, rfl⟩ | ⟨e, rfl⟩
      · exact .lock hw hm
      · exact .halt
    · cases h
  | modify i d =>
    simp only [procStep] at h
    split at h
    · next hp =>
      split_ifs at h with hc
      cases h
      exact .modify hp hc.2
    · cases h
  | logCheck i =>
    simp only [procStep] at h
    split_ifs at h with hc
    obtain ⟨ops, hops, rfl⟩ := log_eq_some h
    exact .logCheck hc.2 (LogOps.step_of_step hops).2
  | logWrite i => exact logWrite_step hn h
  | brelse i =>
    simp only [procStep] at h
    split_ifs at h with hc
    rcases call_eq_some h with ⟨m, hm, rfl⟩ | ⟨e, rfl⟩
    · exact .brelse hc.1 hc.2.1 hc.2.2 hm
    · exact .halt
  | endOp =>
    simp only [procStep] at h
    split_ifs at h with hc
    obtain ⟨ops, hops, rfl⟩ := log_eq_some h
    exact .endOp hc.1 hc.2 (LogOps.step_of_step hops).2
  | commit => exact commit_step hn h
  | kill =>
    obtain ⟨ops, hops, rfl⟩ := log_eq_some h
    exact .kill (LogOps.step_of_step hops).2

end DuckoUnix.LogCrash
