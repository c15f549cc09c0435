import DuckoUnix.Log.Ready

/-!
# Crash atomicity of the log

The invariant of every run: `Durable` holds in every state, whether the kernel runs, recovers or
has panicked, `Ready` while it runs and `Recovering` during `recover_from_log`. After a recovery
that was not interrupted the header on disk is empty, so the disk is what it is worth: the
contents after the last transaction whose header reached it.
-/

namespace DuckoUnix.LogCrash

open Lib Bio LogDisk Function

variable {N start : ℕ} {disk0 : ℕ → Block}

/-- The kernel during `recover_from_log`. -/
structure Recovering (start : ℕ) (disk0 : ℕ → Block) (s : State N) : Prop where
  ops : s.ops = withBlock (LogOps.init N start) s.ops.log.block
  mem : Ok s.mem
  touched : ∀ i, s.mem.touched i = none
  want : ∀ p, s.mem.want p = none
  clean : ∀ b, ¬ Dirty s.mem b
  settled : latest disk0 s.history = contents disk0 s.history
  installed : ∀ tail, s.stage = .install tail →
    s.ops.log.block = readHeader (s.mem.disk start) ∧
    ∀ k < tail, ∀ b, s.ops.log.block[k]? = some b → s.mem.disk b = s.mem.disk (start + k + 1)

/-- The invariant of every run. -/
structure Inv (start : ℕ) (disk0 : ℕ → Block) (s : State N) : Prop where
  logstart : s.ops.log.start = start
  durable : Durable start s.mem.disk (contents disk0 s.history)
  ready : ¬ s.Stopped → s.stage = .ready → Ready start disk0 s
  recovering : ¬ s.Stopped → s.stage ≠ .ready → Recovering start disk0 s

/-! ## Recovery -/

section Recovery

variable {s : State N} {p : Fin N} {m : Mem N}

theorem Recovering.view_eq_disk (h : Recovering start disk0 s) : Bio.view s.mem = s.mem.disk :=
  funext fun b => Bio.view_eq_disk h.mem (h.clean b) fun i _ => h.touched i

theorem Recovering.not_touched (h : Recovering start disk0 s) (p : Fin N) (i : Fin NBUF) :
    s.mem.touched i ≠ some p := by
  rw [h.touched i]
  nofun

theorem boot_recovering {disk : ℕ → Block} {history : List (Event ℕ Block)}
    (h : latest disk0 history = contents disk0 history) :
    Recovering start disk0 (boot N start disk history) where
  ops := rfl
  mem := binit_ok disk
  touched := fun _ => rfl
  want := fun _ => rfl
  clean := fun b => by
    rintro ⟨i, -, hi⟩
    cases hi
  settled := h
  installed := fun _ hs => by cases hs

theorem Recovering.readHead {block : List ℕ} (h : Recovering start disk0 s)
    (e : LogDisk.readHead s.mem p start = .ok (m, block)) :
    m.disk = s.mem.disk ∧
    Recovering start disk0 { s with
      ops := withBlock s.ops block, mem := m, stage := .install 0 } := by
  obtain ⟨hok, hs, hw, rfl⟩ := readHead_reads h.mem (h.want p) (h.not_touched p) e
  refine ⟨hs.disk, ?_⟩
  exact {
    ops := by
      show withBlock s.ops _ = withBlock _ _
      rw [h.ops]
      rfl
    mem := hok
    touched := by rw [hs.touched]; exact h.touched
    want := by rw [hw]; exact h.want
    clean := by rw [hs.dirty]; exact h.clean
    settled := h.settled
    installed := by
      intro tail ht
      cases ht
      refine ⟨?_, nofun⟩
      show readHeader (Bio.view s.mem start) = readHeader (m.disk start)
      rw [h.view_eq_disk, hs.disk] }

theorem Recovering.install {tail b : ℕ} (h : Recovering start disk0 s)
    (hd : Durable start s.mem.disk (contents disk0 s.history)) (hs : s.stage = .install tail)
    (hb : s.ops.log.block[tail]? = some b)
    (e : installTrans s.mem p (start + tail + 1) b = .ok m) :
    Durable start m.disk (contents disk0 s.history) ∧
    Recovering start disk0 { s with mem := m, stage := .install (tail + 1) } := by
  obtain ⟨hblock, hinst⟩ := h.installed tail hs
  have hn : s.ops.log.block.Nodup := hblock ▸ hd.nodup
  have hlen : s.ops.log.block.length < nlog := hblock ▸ hd.length
  have hbhome : Home start b := hd.home b (hblock ▸ List.mem_of_getElem? hb)
  have hslot : ∀ k c, s.ops.log.block[k]? = some c → start + k + 1 ≠ b := by
    intro k c hk
    have hk' := (List.getElem?_eq_some_iff.mp hk).1
    exact (hbhome.ne_slot (lt_of_le_of_lt hk' hlen)).symm
  obtain ⟨hw, ht⟩ := installTrans_writes h.mem (h.want p) (h.not_touched p) (hslot tail b hb) e
  rw [h.view_eq_disk] at hw
  refine ⟨by rw [hw.disk]; exact hd.install (hblock ▸ hb) _, ?_⟩
  exact {
    ops := h.ops
    mem := hw.ok
    touched := by rw [ht]; exact h.touched
    want := by rw [hw.want]; exact h.want
    clean := by
      rw [hw.dirty]
      exact fun c hc => h.clean c hc.1
    settled := h.settled
    installed := by
      intro tail' ht'
      cases ht'
      rw [hw.disk]
      refine ⟨by rw [update_of_ne hbhome.ne_start.symm]; exact hblock, fun k hk c hc => ?_⟩
      rw [update_of_ne (hslot k c hc)]
      by_cases ek : k = tail
      · rw [ek] at hc ⊢
        rw [hb] at hc
        cases hc
        rw [update_self]
      · have hne : c ≠ b := by
          intro ec
          obtain ⟨hk', hkc⟩ := List.getElem?_eq_some_iff.mp hc
          obtain ⟨ht', htb⟩ := List.getElem?_eq_some_iff.mp hb
          exact ek ((hn.getElem_inj_iff).mp (hkc.trans (ec.trans htb.symm)))
        rw [update_of_ne hne]
        exact hinst k (by omega) c hc }

theorem Recovering.clear {tail : ℕ} (h : Recovering start disk0 s)
    (hd : Durable start s.mem.disk (contents disk0 s.history)) (hs : s.stage = .install tail)
    (hb : s.ops.log.block[tail]? = none) (e : writeHead s.mem p start [] = .ok m) :
    Durable start m.disk (contents disk0 s.history) ∧
    Ready start disk0 { s with ops := withBlock s.ops [], mem := m, stage := .ready } := by
  obtain ⟨hblock, hinst⟩ := h.installed tail hs
  have htail : s.ops.log.block.length ≤ tail := List.getElem?_eq_none_iff.mp hb
  obtain ⟨hw, ht⟩ := writeHead_writes h.mem (h.want p) (h.not_touched p) e
  -- a replay would change nothing any more
  have hdisk : ∀ b, Home start b → s.mem.disk b = contents disk0 s.history b := by
    intro b hbh
    rw [← hd.replay b hbh]
    refine (replay_eq_of_agree (fun k hk => ?_) fun _ => rfl).symm
    have hk' : k < s.ops.log.block.length := by rw [hblock]; exact hk
    exact (hinst k (lt_of_lt_of_le hk' htail) _
      (by rw [hblock]; exact List.getElem?_eq_getElem hk)).symm
  have hhead : readHeader (m.disk start) = [] := by
    rw [hw.disk, update_self]
    exact readHeader_writeHeader (by decide) nofun
  have hclean : ∀ b, ¬ Dirty m b := by
    rw [hw.dirty]
    exact fun b hc => h.clean b hc.1
  have hops : withBlock s.ops [] = LogOps.init N start := by rw [h.ops]; rfl
  constructor
  · rw [hw.disk]
    exact Durable.head _ List.nodup_nil nofun nofun (by decide) nofun fun b hbh _ => hdisk b hbh
  · rw [hops]
    exact {
      ops := LogOps.init_inv start
      nodup := List.nodup_nil
      home := nofun
      checked := fun _ _ _ _ hq => by cases hq
      mem := hw.ok
      touched := fun i q hi => by
        rw [ht, h.touched i] at hi
        cases hi
      want := fun _ hq => by cases hq
      view := fun b hbh => by
        rw [hw.view, update_of_ne hbh.ne_start, h.view_eq_disk, hdisk b hbh, h.settled]
      quiet := fun _ => ⟨hhead, fun b => iff_of_false (hclean b) nofun⟩
      phase := fun q => phase_of_not_inCommit rfl
      settled := fun q hq => by cases hq }

end Recovery

/-! ## Every run -/

/-- No logged block number lies in the log region. -/
def LogsHome (start : ℕ) (s : State N) : Act N → Prop
  | .proc _ (.logCheck i) => Home start (s.mem.buf i).blockno
  | _ => True

instance (start : ℕ) (s : State N) (a : Act N) : Decidable (LogsHome start s a) := by
  unfold LogsHome
  split <;> infer_instance

theorem not_stopped {s : State N} (h : ¬ s.Stopped) : s.ops.panic = none ∧ s.halted = none := by
  unfold State.Stopped at h
  rw [not_or, Bool.not_eq_true, Bool.not_eq_true, Option.isSome_eq_false_iff,
    Option.isSome_eq_false_iff, Option.isNone_iff_eq_none, Option.isNone_iff_eq_none] at h
  exact h

/-- A step that keeps the disk and what it is worth, and stays ready unless it stops the kernel. -/
theorem Inv.of_ready {s : State N} (hstart : s.ops.log.start = start)
    (hd : Durable start s.mem.disk (contents disk0 s.history)) (hs : s.stage = .ready)
    (h : ¬ s.Stopped → Ready start disk0 s) : Inv start disk0 s :=
  ⟨hstart, hd, fun hn _ => h hn, fun _ hne => absurd hs hne⟩

theorem log_start {s s' : LogOps.State N} {a : LogOps.Act N} (h : LogOps.Step s a s') :
    s'.log.start = s.log.start := by
  cases h <;> rfl

theorem procStep_inv {s s' : State N} {p : Fin N} {a : ProcAct} (hI : Inv start disk0 s)
    (hn : ¬ s.Stopped) (hs : s.stage = .ready) (hok : LogsHome start s (.proc p a))
    (h : ProcStep s p a s') : Inv start disk0 s' := by
  have hr := hI.ready hn hs
  have hstart := hI.logstart
  have hd := hI.durable
  cases h with
  | halt => exact .of_ready hstart hd hs fun hn => absurd (Or.inr rfl) hn
  | beginOp hstep => exact .of_ready ((log_start hstep).trans hstart) hd hs fun _ => hr.beginOp hstep
  | kill hstep => exact .of_ready ((log_start hstep).trans hstart) hd hs fun _ => hr.kill hstep
  | bget hw hp e =>
    have hdisk := (bget_found hr.mem hw e).same.disk
    exact .of_ready hstart (by rw [hdisk]; exact hd) hs fun _ => hr.bget hw hp e
  | lock hw e =>
    have hdisk := (lockRead_locked hr.mem hw e).same.disk
    exact .of_ready hstart (by rw [hdisk]; exact hd) hs fun _ => hr.lock hw e
  | modify hp hl =>
    exact .of_ready hstart (by rw [contents_update]; exact hd) hs
      fun _ => hr.modify (by rw [hp]; rfl) hl
  | logCheck hl hstep =>
    exact .of_ready ((log_start hstep).trans hstart) hd hs
      fun hn => hr.logCheck hok hstep (not_stopped hn).1
  | logWrite hp hl => exact .of_ready hstart hd hs fun _ => hr.logWrite hp hl
  | outOfBounds hp hl hb hlen =>
    exact absurd (hr.room (by rw [hp]; rfl) hl hb) (Nat.not_lt.mpr hlen)
  | brelse hw hp ht e =>
    have hdisk := (brelse_ok hr.mem ht e).2.1.disk
    exact .of_ready hstart (by rw [hdisk]; exact hd) hs fun _ => hr.brelse ht e
  | endOp hw ht hstep =>
    exact .of_ready ((log_start hstep).trans hstart) hd hs
      fun hn => hr.endOp hw ht hstep (not_stopped hn).1
  | writeLog hp hb e =>
    rw [hstart] at e
    exact .of_ready hstart (hr.writeLog hd hp hb e).1 hs fun _ => (hr.writeLog hd hp hb e).2
  | head hp hb e =>
    rw [hstart] at e
    exact .of_ready hstart (hr.head hp hb e).1 hs fun _ => (hr.head hp hb e).2
  | install hp hb e =>
    rw [hstart] at e
    exact .of_ready hstart (hr.install hd hp hb e).1 hs fun _ => (hr.install hd hp hb e).2
  | clear hp hb => exact .of_ready hstart hd hs fun _ => hr.clear hp hb
  | clearHead hp e =>
    rw [hstart] at e
    exact .of_ready hstart (hr.clearHead hp e).1 hs fun _ => (hr.clearHead hp e).2
  | done hp => exact .of_ready hstart hd hs fun _ => hr.done hp

theorem recoverStep_inv {s s' : State N} {p : Fin N} (hI : Inv start disk0 s) (hn : ¬ s.Stopped)
    (hs : s.stage ≠ .ready) (h : RecoverStep s p s') : Inv start disk0 s' := by
  have hr := hI.recovering hn hs
  have hstart := hI.logstart
  have hd := hI.durable
  cases h with
  | halt =>
    exact ⟨hstart, hd, fun hn => absurd (Or.inr rfl) hn, fun hn => absurd (Or.inr rfl) hn⟩
  | readHead hs e =>
    rw [hstart] at e
    obtain ⟨hdisk, hr'⟩ := hr.readHead e
    exact ⟨hstart, by rw [hdisk]; exact hd, nofun, fun _ _ => hr'⟩
  | install hs hb e =>
    rw [hstart] at e
    obtain ⟨hd', hr'⟩ := hr.install hd hs hb e
    exact ⟨hstart, hd', nofun, fun _ _ => hr'⟩
  | clear hs hb e =>
    rw [hstart] at e
    obtain ⟨hd', hr'⟩ := hr.clear hd hs hb e
    exact .of_ready hstart hd' rfl fun _ => hr'

theorem step_inv {s s' : State N} {a : Act N} (hI : Inv start disk0 s) (hok : LogsHome start s a)
    (h : step s a = some s') : Inv start disk0 s' := by
  cases a with
  | proc p a =>
    simp only [step] at h
    split_ifs at h with hc
    rw [not_or, not_not] at hc
    exact procStep_inv hI hc.1 hc.2 hok (procStep_step (not_stopped hc.1).1 h)
  | recover p =>
    simp only [step] at h
    split_ifs at h with hc
    obtain ⟨hs, hr⟩ := recover_step h
    exact recoverStep_inv hI hc hs hr
  | crash =>
    simp only [step, Option.some.injEq] at h
    subst h
    refine ⟨hI.logstart, ?_, fun _ hs => (by cases hs), fun _ _ => ?_⟩
    · show Durable start s.mem.disk (contents disk0 (s.history ++ [.crash]))
      rw [contents_crash]
      exact hI.durable
    · rw [hI.logstart]
      exact boot_recovering (by rw [latest_crash, contents_crash])

/-- A disk whose log is empty is worth what it holds. -/
theorem boot_inv (hn : getLE (disk0 start) 0 4 = 0) :
    Inv start disk0 (boot N start disk0 []) := by
  have hhead : readHeader (disk0 start) = [] := by
    unfold readHeader
    rw [hn]
    rfl
  refine ⟨rfl, ⟨?_, ?_, ?_, fun b _ => ?_⟩, nofun, fun _ _ => boot_recovering rfl⟩
  · show (readHeader (disk0 start)).Nodup
    rw [hhead]; exact List.nodup_nil
  · show ∀ b ∈ readHeader (disk0 start), _
    rw [hhead]; nofun
  · show (readHeader (disk0 start)).length < nlog
    rw [hhead]; decide
  · show replay (readHeader (disk0 start)) _ _ b = _
    rw [hhead]; rfl

theorem run_inv {as : List (Act N)} {s : State N} (hn : getLE (disk0 start) 0 4 = 0)
    (hm : Meets step (LogsHome start) (boot N start disk0 []) as)
    (h : run step (boot N start disk0 []) as = some s) : Inv start disk0 s :=
  run_invariant (fun _ _ _ => step_inv) (boot_inv hn) hm h

/-- After a recovery that was not interrupted, every home block holds what the transactions whose
headers reached the disk have left there. -/
theorem crash_atomicity {as : List (Act N)} {p : Fin N} {s : State N}
    (hn : getLE (disk0 start) 0 4 = 0)
    (hm : Meets step (LogsHome start) (boot N start disk0 []) (as ++ [.recover p]))
    (h : run step (boot N start disk0 []) (as ++ [.recover p]) = some s) (hs : s.stage = .ready)
    {b : ℕ} (hb : Home start b) : s.mem.disk b = contents disk0 s.history b := by
  obtain ⟨t, hpre, ht⟩ := run_append_eq_some.mp h
  have hI := run_inv hn hm.of_append hpre
  rw [run_singleton] at ht
  simp only [step] at ht
  split_ifs at ht with hc
  obtain ⟨hts, hr⟩ := recover_step ht
  have hrec := hI.recovering hc hts
  cases hr with
  | halt => exact absurd hs hts
  | readHead _ _ => cases hs
  | install _ _ _ => cases hs
  | clear hst hend e =>
    rw [hI.logstart] at e
    obtain ⟨hd, hready⟩ := hrec.clear hI.durable hst hend e
    have hidle : ∀ q, (t.ops.procs q).pastHead = false := by
      intro q
      rw [hrec.ops]
      rfl
    exact hd.disk_eq (hready.quiet hidle).1 hb

local instance oneProcess : NeZero 1 := ⟨Nat.one_ne_zero⟩

/-- One transaction, cut off between its header and the first block it installs. -/
def cutCommit : List (Act 1) :=
  let i : Fin NBUF := ⟨1, one_lt_nbuf⟩
  [.recover 0, .recover 0, .proc 0 .beginOp, .proc 0 (.bget 50), .proc 0 .lock,
    .proc 0 (.modify i fun _ => 7), .proc 0 (.logCheck i), .proc 0 (.logWrite i),
    .proc 0 (.brelse i), .proc 0 .endOp, .proc 0 .commit, .proc 0 .commit, .crash,
    .recover 0, .recover 0]

theorem crash_atomicity_cutCommit :
    ∃ s, run step (boot 1 2 (fun _ _ => 0) []) (cutCommit ++ [.recover 0]) = some s ∧
      s.mem.disk 50 0 = 7 ∧ s.mem.disk 50 = contents (fun _ _ => 0) s.history 50 := by
  have hrun : (run step (boot 1 2 (fun _ _ => 0) []) (cutCommit ++ [.recover 0])).map
      (fun s => (s.stage, s.mem.disk 50 0)) = some (.ready, 7) := by decide +kernel
  obtain ⟨s, hs, he⟩ := Option.map_eq_some_iff.mp hrun
  obtain ⟨hstage, hdata⟩ := Prod.mk.inj he
  exact ⟨s, hs, hdata, crash_atomicity (by decide) (by decide +kernel) hs hstage (by decide)⟩

end DuckoUnix.LogCrash
