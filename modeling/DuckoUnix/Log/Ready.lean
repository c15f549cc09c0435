import DuckoUnix.Log.Crash

/-!
# The log while the kernel runs

`Durable` says what the disk is worth at each moment: replaying the log that its header lists
gives the contents after the last transaction whose header reached the disk. Every disk write but
one keeps the replayed contents; that one, `write_head` with the header of a transaction, moves
them to the latest contents.

To see that the writes are of that kind, `Ready` ties the dirty buffers to `log.lh` and the view
of the cache to the latest contents. The log never overruns its region although `log_write` checks
its room before it takes the lock: two processes can pass the check together and make `n` one
larger than `log.size - 1`, but then every buffer of the cache is dirty, and `write_log` finds no
buffer for its first log block.
-/

namespace DuckoUnix.LogCrash

open Lib Bio LogDisk Function

variable {N start : ℕ} {disk0 : ℕ → Block}

/-! ## What the disk is worth -/

/-- Block `b` lies outside the log region. -/
def Home (start b : ℕ) : Prop := b < start ∨ start + nlog ≤ b

instance (start b : ℕ) : Decidable (Home start b) := inferInstanceAs (Decidable (_ ∨ _))

theorem Home.ne_start {b : ℕ} (h : Home start b) : b ≠ start := by
  unfold Home nlog LOGSIZE MAXOPBLOCKS at h
  omega

theorem Home.ne_slot {b k : ℕ} (h : Home start b) (hk : k + 1 < nlog) : b ≠ start + k + 1 := by
  unfold Home at h
  omega

/-- The disk, with its log replayed, holds `spec` at the home blocks. -/
structure Durable (start : ℕ) (disk spec : ℕ → Block) : Prop where
  nodup : (readHeader (disk start)).Nodup
  home : ∀ b ∈ readHeader (disk start), Home start b
  length : (readHeader (disk start)).length < nlog
  replay : ∀ b, Home start b →
    replay (readHeader (disk start)) (fun k => disk (start + k + 1)) disk b = spec b

section Durable

variable {disk spec : ℕ → Block}

/-- With an empty header, a write to a log block does not count. -/
theorem Durable.slot (h : Durable start disk spec) (he : readHeader (disk start) = []) {k : ℕ}
    (hk : k + 1 < nlog) (d : Block) :
    Durable start (update disk (start + k + 1) d) spec := by
  have hs : update disk (start + k + 1) d start = disk start :=
    update_of_ne (by omega) _ _
  refine ⟨by rw [hs]; exact h.nodup, by rw [hs]; exact h.home, by rw [hs]; exact h.length, ?_⟩
  intro b hb
  have hr := h.replay b hb
  rw [he, replay_nil] at hr
  rw [hs, he, replay_nil, update_of_ne (hb.ne_slot hk), hr]

/-- Writing a header whose log blocks hold the new contents makes them durable. -/
theorem Durable.head {l : List ℕ} (blk : Block) (hn : l.Nodup) (hl : ∀ b ∈ l, Home start b)
    (hsmall : ∀ b ∈ l, b < FSSIZE) (hlen : l.length < nlog)
    (hslot : ∀ k b, l[k]? = some b → disk (start + k + 1) = spec b)
    (hhome : ∀ b, Home start b → b ∉ l → disk b = spec b) :
    Durable start (update disk start (writeHeader blk l)) spec := by
  have hs : readHeader (update disk start (writeHeader blk l) start) = l := by
    rw [update_self]
    refine readHeader_writeHeader ?_ fun b hb => (hsmall b hb).trans (by decide)
    exact hlen.trans (by decide)
  refine ⟨by rw [hs]; exact hn, by rw [hs]; exact hl, by rw [hs]; exact hlen, ?_⟩
  intro b hb
  rw [hs]
  refine replay_eq_of_agree (fun k hk => ?_) fun hbl => ?_
  · rw [update_of_ne (by omega)]
    exact hslot k _ (List.getElem?_eq_getElem hk)
  · rw [update_of_ne hb.ne_start]
    exact hhome b hb hbl

/-- Copying a log block to its home does not change what a replay gives. -/
theorem Durable.install (h : Durable start disk spec) {k b : ℕ}
    (hb : (readHeader (disk start))[k]? = some b) (d : Block) :
    Durable start (update disk b d) spec := by
  obtain ⟨hk, hbk⟩ := List.getElem?_eq_some_iff.mp hb
  have hmem : b ∈ readHeader (disk start) := hbk ▸ List.getElem_mem hk
  have hhome := h.home b hmem
  have hs : update disk b d start = disk start :=
    update_of_ne hhome.ne_start.symm _ _
  refine ⟨by rw [hs]; exact h.nodup, by rw [hs]; exact h.home, by rw [hs]; exact h.length, ?_⟩
  intro c hc
  rw [hs, ← h.replay c hc]
  refine replay_congr (fun j hj => ?_) fun hcl => ?_
  · have hj' : j + 1 < nlog := lt_of_le_of_lt hj h.length
    exact update_of_ne (hhome.ne_slot hj').symm _ _
  · exact update_of_ne (fun e : c = b => hcl (e ▸ hmem)) _ _

/-- With an empty header the disk is what it is worth. -/
theorem Durable.disk_eq (h : Durable start disk spec) (he : readHeader (disk start) = []) {b : ℕ}
    (hb : Home start b) : disk b = spec b := by
  have hr := h.replay b hb
  rwa [he, replay_nil] at hr

end Durable

/-! ## The invariant while the kernel runs -/

/-- What the process that commits has done. -/
def Phase (start : ℕ) (s : State N) : LogOps.PState → Prop
  | .writeLog tail =>
    (0 < tail → s.ops.log.block.length < nlog) ∧
    ∀ k < tail, ∀ b, s.ops.log.block[k]? = some b → s.mem.disk (start + k + 1) = view s.mem b
  | .install tail =>
    readHeader (s.mem.disk start) = s.ops.log.block ∧
    (∀ k b, s.ops.log.block[k]? = some b → s.mem.disk (start + k + 1) = view s.mem b) ∧
    ∀ b, Dirty s.mem b ↔ b ∈ s.ops.log.block.drop tail
  | .clearHead => s.ops.log.block = [] ∧ ∀ b, ¬ Dirty s.mem b
  | _ => True

/-- The kernel after recovery. -/
structure Ready (start : ℕ) (disk0 : ℕ → Block) (s : State N) : Prop where
  ops : LogOps.Inv s.ops
  nodup : s.ops.log.block.Nodup
  home : ∀ b ∈ s.ops.log.block, Home start b
  checked : ∀ p o logged b, s.ops.procs p = .checked o logged b → Home start b
  mem : Ok s.mem
  /-- only a process in an operation changes buffers -/
  touched : ∀ i p, s.mem.touched i = some p → (s.ops.procs p).inOp = true
  want : ∀ p, (s.ops.procs p).inCommit = true → s.mem.want p = none
  view : ∀ b, Home start b → view s.mem b = latest disk0 s.history b
  /-- unless a transaction is being installed, `log.lh` lists the dirty buffers -/
  quiet : (∀ p, (s.ops.procs p).pastHead = false) →
    readHeader (s.mem.disk start) = [] ∧ ∀ b, Dirty s.mem b ↔ b ∈ s.ops.log.block
  phase : ∀ p, Phase start s (s.ops.procs p)
  settled : ∀ p, (s.ops.procs p).pastHead = true →
    latest disk0 s.history = contents disk0 s.history

theorem phase_of_not_inCommit {s : State N} {x : LogOps.PState} (h : x.inCommit = false) :
    Phase start s x := by
  cases x <;> trivial

/-- While a process is in an operation, none has written a header it has not erased. -/
theorem Ready.not_pastHead {s : State N} (h : Ready start disk0 s) {p : Fin N}
    (hp : (s.ops.procs p).inOp = true) (q : Fin N) : (s.ops.procs q).pastHead = false :=
  LogOps.not_pastHead (h.ops.not_inCommit hp q)

/-- While a process commits, nobody is changing a buffer. -/
theorem Ready.not_touched {s : State N} (h : Ready start disk0 s) {p : Fin N}
    (hp : (s.ops.procs p).inCommit = true) (i : Fin NBUF) : s.mem.touched i = none := by
  by_contra ht
  obtain ⟨q, hq⟩ := Option.ne_none_iff_exists'.mp ht
  have := h.ops.not_inCommit (h.touched i q hq) p
  rw [hp] at this
  cases this

theorem Ready.view_eq_disk {s : State N} (h : Ready start disk0 s) {p : Fin N}
    (hp : (s.ops.procs p).inCommit = true) {b : ℕ} (hb : ¬ Dirty s.mem b) :
    Bio.view s.mem b = s.mem.disk b :=
  Bio.view_eq_disk h.mem hb fun i _ => h.not_touched hp i

theorem phase_congr {s s' : State N} {x : LogOps.PState} (h : Phase start s x)
    (hblock : s'.ops.log.block = s.ops.log.block) (hdisk : s'.mem.disk = s.mem.disk)
    (hview : Bio.view s'.mem = Bio.view s.mem) (hdirty : Dirty s'.mem = Dirty s.mem) :
    Phase start s' x := by
  cases x with
  | writeLog tail => simpa only [Phase, hblock, hdisk, hview] using h
  | install tail => simpa only [Phase, hblock, hdisk, hview, hdirty] using h
  | clearHead => simpa only [Phase, hblock, hdirty] using h
  | idle | begin _ | op _ _ | checked _ _ _ | done => trivial

/-! ## Steps of the control state -/

/-- A step that moves process `p` to `x` and perhaps wakes others. -/
theorem Ready.move {s : State N} (h : Ready start disk0 s) {ops : LogOps.State N} {p : Fin N}
    {x : LogOps.PState} (hops : LogOps.Inv ops) (hblock : ops.log.block = s.ops.log.block)
    (hp : ops.procs p = x)
    (hq : ∀ q, q ≠ p → ops.procs q = s.ops.procs q ∨
      (s.ops.procs q = .begin true ∧ ops.procs q = .begin false))
    (hchecked : ∀ o logged b, x = .checked o logged b → Home start b)
    (htouched : ∀ i, s.mem.touched i = some p → x.inOp = true)
    (hcommit : x.inCommit = true → s.mem.want p = none ∧ Phase start s x)
    (hhead : x.pastHead = (s.ops.procs p).pastHead) :
    Ready start disk0 { s with ops := ops } := by
  -- what does not see a wakeup is as before at the other processes
  have hsame : ∀ {β : Type} (f : LogOps.PState → β), f (.begin false) = f (.begin true) →
      ∀ q, q ≠ p → f (ops.procs q) = f (s.ops.procs q) := by
    intro β f hf q e
    rcases hq q e with e' | ⟨e₁, e₂⟩
    · rw [e']
    · rw [e₁, e₂, hf]
  have hpast : ∀ q, (ops.procs q).pastHead = (s.ops.procs q).pastHead := by
    intro q
    by_cases e : q = p
    · rw [e, hp, hhead]
    · exact hsame _ rfl q e
  exact {
    ops := hops
    nodup := by rw [hblock]; exact h.nodup
    home := by rw [hblock]; exact h.home
    checked := by
      intro q o logged b hqb
      by_cases e : q = p
      · rw [e, hp] at hqb
        exact hchecked o logged b hqb
      · rcases hq q e with e' | ⟨-, e₂⟩
        · exact h.checked q o logged b (e' ▸ hqb)
        · rw [e₂] at hqb; cases hqb
    mem := h.mem
    touched := by
      intro i q hi
      by_cases e : q = p
      · rw [e, hp]; exact htouched i (e ▸ hi)
      · rw [hsame LogOps.PState.inOp rfl q e]; exact h.touched i q hi
    want := by
      intro q hqc
      by_cases e : q = p
      · rw [e, hp] at hqc; rw [e]; exact (hcommit hqc).1
      · rw [hsame LogOps.PState.inCommit rfl q e] at hqc; exact h.want q hqc
    view := h.view
    quiet := by
      intro hq
      have := h.quiet fun q => (hpast q).symm.trans (hq q)
      rwa [← hblock] at this
    phase := by
      intro q
      by_cases hqc : (ops.procs q).inCommit = true
      · have hx : Phase start s (ops.procs q) := by
          by_cases e : q = p
          · rw [e, hp] at hqc ⊢; exact (hcommit hqc).2
          · rcases hq q e with e' | ⟨-, e₂⟩
            · rw [e']; exact h.phase q
            · rw [e₂] at hqc; cases hqc
        exact phase_congr hx hblock rfl rfl rfl
      · exact phase_of_not_inCommit (Bool.not_eq_true _ ▸ hqc)
    settled := fun q hq => h.settled q ((hpast q).symm.trans hq) }

theorem others_update {procs : Fin N → LogOps.PState} {p : Fin N} {x : LogOps.PState} (q : Fin N)
    (e : q ≠ p) : update procs p x q = procs q ∨
      (procs q = .begin true ∧ update procs p x q = .begin false) :=
  Or.inl (update_of_ne e _ _)

theorem others_wakeup {procs : Fin N → LogOps.PState} {p : Fin N} {x : LogOps.PState} (q : Fin N)
    (e : q ≠ p) : update (LogOps.wakeup procs) p x q = procs q ∨
      (procs q = .begin true ∧ update (LogOps.wakeup procs) p x q = .begin false) := by
  rw [update_of_ne e]
  exact LogOps.wakeup_cases procs q

theorem Ready.not_touched_by {s : State N} (h : Ready start disk0 s) {p : Fin N}
    (hp : (s.ops.procs p).inOp = false) (i : Fin NBUF) : s.mem.touched i ≠ some p := by
  intro hi
  rw [h.touched i p hi] at hp
  cases hp

theorem Ready.beginOp {s : State N} (h : Ready start disk0 s) {p : Fin N} {ops : LogOps.State N}
    (hs : LogOps.Step s.ops (.beginOp p) ops) : Ready start disk0 { s with ops := ops } := by
  have hops := LogOps.step_inv hs h.ops
  cases hs with
  | wait hp hw =>
    refine h.move hops rfl (update_self ..) others_update nofun ?_ nofun ?_
    · intro i hi
      exact absurd hi (h.not_touched_by (by rcases hp with hp | hp <;> rw [hp] <;> rfl) i)
    · rcases hp with hp | hp <;> rw [hp] <;> rfl
  | enter hp hw =>
    refine h.move hops rfl (update_self ..) others_update nofun (fun _ _ => rfl) nofun ?_
    rcases hp with hp | hp <;> rw [hp] <;> rfl

theorem Ready.kill {s : State N} (h : Ready start disk0 s) {p : Fin N} {ops : LogOps.State N}
    (hs : LogOps.Step s.ops (.kill p) ops) : Ready start disk0 { s with ops := ops } := by
  have hops := LogOps.step_inv hs h.ops
  cases hs with
  | kill hp =>
    refine h.move hops rfl (update_self ..) others_update nofun ?_ nofun (by rw [hp]; rfl)
    exact fun i hi => absurd hi (h.not_touched_by (by rw [hp]; rfl) i)

theorem Ready.logCheck {s : State N} (h : Ready start disk0 s) {p : Fin N} {b : ℕ}
    (hb : Home start b) {ops : LogOps.State N} (hs : LogOps.Step s.ops (.logCheck p b) ops)
    (hn : ops.panic = none) : Ready start disk0 { s with ops := ops } := by
  have hops := LogOps.step_inv hs h.ops
  cases hs with
  | tooBig hp _ => cases hn
  | outside hp _ => cases hn
  | check hp _ =>
    exact h.move hops rfl (update_self ..) others_update
      (fun _ _ _ e => by cases e; exact hb) (fun _ _ => rfl) nofun (by rw [hp]; rfl)

theorem Ready.endOp {s : State N} (h : Ready start disk0 s) {p : Fin N}
    (hw : s.mem.want p = none) (ht : ∀ i, s.mem.touched i ≠ some p) {ops : LogOps.State N}
    (hs : LogOps.Step s.ops (.endOp p) ops) (hn : ops.panic = none) :
    Ready start disk0 { s with ops := ops } := by
  have hops := LogOps.step_inv hs h.ops
  cases hs with
  | nested hp _ => cases hn
  | last hp _ _ =>
    refine h.move hops rfl (update_self ..) others_update ?_ (fun i hi => absurd hi (ht i))
      (fun _ => ⟨hw, ?_⟩) ?_
    · intro o logged b e; split_ifs at e
    · split_ifs
      · exact ⟨nofun, nofun⟩
      · trivial
    · rw [hp]; split_ifs <;> rfl
  | leave hp _ _ =>
    exact h.move hops rfl (update_self ..) others_wakeup nofun
      (fun i hi => absurd hi (ht i)) nofun (by rw [hp]; rfl)

theorem Ready.done {s : State N} (h : Ready start disk0 s) {p : Fin N}
    (hp : s.ops.procs p = .done) :
    Ready start disk0 { s with
      ops := { s.ops with
        log := { s.ops.log with committing := false }
        procs := update (LogOps.wakeup s.ops.procs) p .idle } } := by
  refine h.move (LogOps.step_inv (.done hp) h.ops) rfl (update_self ..) others_wakeup nofun
    ?_ nofun (by rw [hp]; rfl)
  exact fun i hi => absurd hi (h.not_touched_by (by rw [hp]; rfl) i)

/-! ## Steps of a process in the buffer cache -/

theorem Ready.same {s : State N} (h : Ready start disk0 s) {m : Mem N} (hok : Ok m)
    (hs : Same s.mem m) (hw : ∀ q, (s.ops.procs q).inCommit = true → m.want q = none) :
    Ready start disk0 { s with mem := m } where
  ops := h.ops
  nodup := h.nodup
  home := h.home
  checked := h.checked
  mem := hok
  touched := by rw [hs.touched]; exact h.touched
  want := hw
  view := by rw [hs.view]; exact h.view
  quiet := by rw [hs.disk, hs.dirty]; exact h.quiet
  phase := fun p => phase_congr (h.phase p) rfl hs.disk hs.view hs.dirty
  settled := h.settled

theorem Running.not_inCommit {x : LogOps.PState} (h : Running x) : x.inCommit = false := by
  cases x <;> first | rfl | cases h

theorem Ready.want_update {s : State N} (h : Ready start disk0 s) {p : Fin N}
    (hp : (s.ops.procs p).inCommit = false) (x : Option (Fin NBUF)) (q : Fin N)
    (hq : (s.ops.procs q).inCommit = true) : update s.mem.want p x q = none := by
  have e : q ≠ p := by
    rintro rfl
    rw [hp] at hq
    cases hq
  rw [update_of_ne e]
  exact h.want q hq

theorem Ready.bget {s : State N} (h : Ready start disk0 s) {p : Fin N} {b : ℕ} {m : Mem N}
    {i : Fin NBUF} (hw : s.mem.want p = none) (hp : Running (s.ops.procs p))
    (e : Bio.bget s.mem p ROOTDEV b = .ok (m, i)) : Ready start disk0 { s with mem := m } := by
  have hf := bget_found h.mem hw e
  refine h.same hf.ok hf.same ?_
  rw [hf.want]
  exact h.want_update hp.not_inCommit _

theorem Ready.lock {s : State N} (h : Ready start disk0 s) {p : Fin N} {m : Mem N} {i : Fin NBUF}
    (hw : s.mem.want p = some i) (e : lockRead s.mem p i = .ok m) :
    Ready start disk0 { s with mem := m } := by
  have hl := lockRead_locked h.mem hw e
  have hp : (s.ops.procs p).inCommit = false := by
    by_contra hp
    rw [h.want p (by simpa using hp)] at hw
    cases hw
  refine h.same hl.ok hl.same ?_
  rw [hl.want]
  exact h.want_update hp _

theorem Ready.brelse {s : State N} (h : Ready start disk0 s) {p : Fin N} {m : Mem N}
    {i : Fin NBUF} (ht : s.mem.touched i ≠ some p) (e : Bio.brelse s.mem p i = .ok m) :
    Ready start disk0 { s with mem := m } := by
  obtain ⟨hok, hs, hw⟩ := brelse_ok h.mem ht e
  refine h.same hok hs ?_
  rw [hw]
  exact h.want

theorem Ready.locked_is {s : State N} (h : Ready start disk0 s) {p : Fin N} {i : Fin NBUF}
    (hl : (s.mem.buf i).lock = some p) : (s.mem.buf i).Is ROOTDEV (s.mem.buf i).blockno :=
  ⟨((h.mem.buf i).locked (by rw [hl]; rfl)).1, rfl⟩

theorem Ready.modify {s : State N} (h : Ready start disk0 s) {p : Fin N} {i : Fin NBUF} {d : Block}
    (hp : (s.ops.procs p).inOp = true) (hl : (s.mem.buf i).lock = some p) :
    Ready start disk0 { s with
      mem := Bio.modify s.mem p i d
      history := s.history ++ [.update (s.mem.buf i).blockno d] } := by
  have hw := modify_writes h.mem hl (h.locked_is hl) d
  exact {
    ops := h.ops
    nodup := h.nodup
    home := h.home
    checked := h.checked
    mem := hw.ok
    touched := by
      intro j q hj
      by_cases e : j = i
      · have hj : update s.mem.touched i (some p) j = some q := hj
        rw [e, update_self] at hj
        cases hj
        exact hp
      · have hj : update s.mem.touched i (some p) j = some q := hj
        rw [update_of_ne e] at hj
        exact h.touched j q hj
    want := by rw [hw.want]; exact h.want
    view := by
      intro b hb
      rw [hw.view, latest_update]
      by_cases e : b = (s.mem.buf i).blockno
      · rw [e, update_self, update_self]
      · rw [update_of_ne e, update_of_ne e, h.view b hb]
    quiet := by rw [hw.disk, hw.dirty]; exact h.quiet
    phase := fun q => phase_of_not_inCommit (h.ops.not_inCommit hp q)
    settled := fun q hq => by rw [h.not_pastHead hp q] at hq; cases hq }

theorem nodup_absorb {l : List ℕ} {b : ℕ} (h : l.Nodup) : (LogOps.absorb l b).Nodup := by
  unfold LogOps.absorb
  split_ifs with hb
  · exact h
  · exact List.nodup_append.mpr ⟨h, List.nodup_singleton b,
      fun x hx y hy e => hb (by rw [List.mem_singleton.mp hy] at e; exact e ▸ hx)⟩

theorem Ready.logWrite {s : State N} (h : Ready start disk0 s) {p : Fin N} {i : Fin NBUF} {o : ℕ}
    {logged : List ℕ} (hp : s.ops.procs p = .checked o logged (s.mem.buf i).blockno)
    (hl : (s.mem.buf i).lock = some p) :
    Ready start disk0 { s with
      ops := { s.ops with
        log := { s.ops.log with block := LogOps.absorb s.ops.log.block (s.mem.buf i).blockno }
        procs := update s.ops.procs p (.op o (logged ++ [(s.mem.buf i).blockno]))
        events := s.ops.events ++ [.logged o (s.mem.buf i).blockno] }
      mem := mark s.mem i } := by
  set b := (s.mem.buf i).blockno with hb
  have hw := mark_writes h.mem hl (h.locked_is hl)
  have hops := LogOps.step_inv (.write hp) h.ops
  have hin : (s.ops.procs p).inOp = true := by rw [hp]; rfl
  have hcommit : ∀ q, (update s.ops.procs p
      (LogOps.PState.op o (logged ++ [b])) q).inCommit = false := by
    intro q
    have hq := LogOps.apply_update (f := LogOps.PState.inCommit)
      (x := LogOps.PState.op o (logged ++ [b])) (by rw [hp]; rfl : _ = (s.ops.procs p).inCommit) q
    rw [hq, h.ops.not_inCommit hin q]
  have hop : ∀ q, (update s.ops.procs p
      (LogOps.PState.op o (logged ++ [b])) q).inOp = (s.ops.procs q).inOp :=
    LogOps.apply_update (by rw [hp]; rfl)
  exact {
    ops := hops
    nodup := nodup_absorb h.nodup
    home := by
      intro c hc
      rcases LogOps.mem_absorb.mp hc with hc | rfl
      · exact h.home c hc
      · exact h.checked p o logged _ hp
    checked := by
      exact fun q => LogOps.forall_update
        (P := fun x => ∀ o logged b, x = LogOps.PState.checked o logged b → Home start b)
        (by intro _ _ _ e; cases e) h.checked q
    mem := hw.ok
    touched := by
      intro j q hj
      rw [hop]
      have hj : update s.mem.touched i none j = some q := hj
      by_cases e : j = i
      · rw [e, update_self] at hj; cases hj
      · rw [update_of_ne e] at hj
        exact h.touched j q hj
    want := fun q hq => by rw [hcommit q] at hq; cases hq
    view := by rw [hw.view]; exact h.view
    quiet := by
      intro _
      obtain ⟨hhead, hdirty⟩ := h.quiet (h.not_pastHead hin)
      rw [hw.disk, hw.dirty]
      exact ⟨hhead, fun c => (or_congr_left (hdirty c)).trans LogOps.mem_absorb.symm⟩
    phase := fun q => phase_of_not_inCommit (hcommit q)
    settled := fun q hq =>
      absurd ((LogOps.not_pastHead (hcommit q)).symm.trans hq) Bool.false_ne_true }

/-- The header in memory has room for a block whose buffer is held. -/
theorem Ready.room {s : State N} (h : Ready start disk0 s) {p : Fin N} {i : Fin NBUF}
    (hp : (s.ops.procs p).inOp = true) (hl : (s.mem.buf i).lock = some p)
    (hb : (s.mem.buf i).blockno ∉ s.ops.log.block) : s.ops.log.block.length < LOGSIZE := by
  have hdirty := (h.quiet (h.not_pastHead hp)).2
  refine length_le_NBUF (m := s.mem) (l := (s.mem.buf i).blockno :: s.ops.log.block)
    (List.nodup_cons.mpr ⟨hb, h.nodup⟩) fun c hc => ?_
  rcases List.mem_cons.mp hc with rfl | hc
  · exact ⟨i, h.locked_is hl⟩
  · exact ((hdirty c).mpr hc).imp fun _ hi => hi.1

/-! ## Steps of the commit -/

/-- Before the header is written, no transaction is being installed. -/
theorem Ready.quiet_of {s : State N} (h : Ready start disk0 s) {p : Fin N}
    (hp : (s.ops.procs p).inCommit = true) (hp' : (s.ops.procs p).pastHead = false) :
    readHeader (s.mem.disk start) = [] ∧ ∀ b, Dirty s.mem b ↔ b ∈ s.ops.log.block := by
  refine h.quiet fun q => ?_
  by_cases e : q = p
  · rw [e]; exact hp'
  · exact LogOps.not_pastHead (h.ops.not_inCommit_of_ne hp e)

/-- A step of the committing process `p` to `x`. -/
theorem Ready.commits {s s' : State N} (h : Ready start disk0 s) {p : Fin N} {x : LogOps.PState}
    (hp : (s.ops.procs p).inCommit = true) (hops : LogOps.Inv s'.ops)
    (hprocs : s'.ops.procs = update s.ops.procs p x) (hx : x.inCommit = true)
    (hnodup : s'.ops.log.block.Nodup) (hhome : ∀ b ∈ s'.ops.log.block, Home start b)
    (hok : Ok s'.mem) (htouched : s'.mem.touched = s.mem.touched)
    (hwant : s'.mem.want = s.mem.want)
    (hview : ∀ b, Home start b → Bio.view s'.mem b = latest disk0 s'.history b)
    (hquiet : x.pastHead = false →
      readHeader (s'.mem.disk start) = [] ∧ ∀ b, Dirty s'.mem b ↔ b ∈ s'.ops.log.block)
    (hphase : Phase start s' x)
    (hsettled : x.pastHead = true →
      latest disk0 s'.history = contents disk0 s'.history) : Ready start disk0 s' := by
  have hother : ∀ q, q ≠ p → (s'.ops.procs q).inCommit = false := by
    intro q e
    rw [hprocs, update_of_ne e]
    exact h.ops.not_inCommit_of_ne hp e
  have hself : s'.ops.procs p = x := by rw [hprocs, update_self]
  exact {
    ops := hops
    nodup := hnodup
    home := hhome
    checked := by
      intro q o logged b hq
      by_cases e : q = p
      · rw [e, hself] at hq
        rw [hq] at hx
        cases hx
      · rw [hprocs, update_of_ne e] at hq
        exact h.checked q o logged b hq
    mem := hok
    touched := by
      intro i q hi
      rw [htouched, h.not_touched hp i] at hi
      cases hi
    want := by
      intro q hq
      rw [hwant]
      by_cases e : q = p
      · rw [e]; exact h.want p hp
      · rw [hother q e] at hq; cases hq
    view := hview
    quiet := fun hq => hquiet (by rw [← hself]; exact hq p)
    phase := by
      intro q
      by_cases e : q = p
      · rw [e, hself]; exact hphase
      · exact phase_of_not_inCommit (hother q e)
    settled := by
      intro q hq
      by_cases e : q = p
      · exact hsettled (by rw [← hself, ← e]; exact hq)
      · exact absurd ((LogOps.not_pastHead (hother q e)).symm.trans hq) Bool.false_ne_true }

theorem Ready.not_touched_by_commit {s : State N} (h : Ready start disk0 s) {p : Fin N}
    (hp : (s.ops.procs p).inCommit = true) (i : Fin NBUF) : s.mem.touched i ≠ some p := by
  rw [h.not_touched hp i]
  nofun

section Commit

variable {s : State N} {p : Fin N} {m : Mem N}

theorem Ready.writeLog {tail b : ℕ} (h : Ready start disk0 s)
    (hd : Durable start s.mem.disk (contents disk0 s.history))
    (hp : s.ops.procs p = .writeLog tail) (hb : s.ops.log.block[tail]? = some b)
    (e : LogDisk.writeLog s.mem p (start + tail + 1) b = .ok m) :
    Durable start m.disk (contents disk0 s.history) ∧
    Ready start disk0 { s with
      ops := { s.ops with procs := update s.ops.procs p (.writeLog (tail + 1)) }
      mem := m } := by
  have hpc : (s.ops.procs p).inCommit = true := by rw [hp]; rfl
  obtain ⟨hlt, hbt⟩ := List.getElem?_eq_some_iff.mp hb
  have hbhome : Home start b := h.home b (hbt ▸ List.getElem_mem hlt)
  obtain ⟨hhead, hdirty⟩ := h.quiet_of hpc (by rw [hp]; rfl)
  have hphase : Phase start s (.writeLog tail) := hp ▸ h.phase p
  -- the log block of this round lies in the log region
  have hslot : tail + 1 < nlog := by
    by_cases h0 : tail = 0
    · rw [h0]; decide
    · exact lt_of_le_of_lt hlt (hphase.1 (Nat.pos_of_ne_zero h0))
  have hne : ∀ c, Home start c → c ≠ start + tail + 1 := fun c hc => hc.ne_slot hslot
  obtain ⟨hw, ht, hroom⟩ := writeLog_writes h.mem (h.want p hpc) (h.not_touched_by_commit hpc)
    (hne b hbhome).symm e
  -- a buffer was found for the log block, so not all of them are dirty
  have hlen : s.ops.log.block.length < nlog :=
    hroom _ h.nodup (fun c hc => (hdirty c).mpr hc) fun hc => hne _ (h.home _ hc) rfl
  have hview : ∀ c, Home start c → Bio.view m c = Bio.view s.mem c := by
    intro c hc
    rw [hw.view, update_of_ne (hne c hc)]
  have hstart : m.disk start = s.mem.disk start := by
    rw [hw.disk, update_of_ne (by omega)]
  refine ⟨by rw [hw.disk]; exact hd.slot hhead hslot _, ?_⟩
  refine h.commits hpc (LogOps.step_inv (.writeLog hp hlt) h.ops) rfl rfl h.nodup h.home hw.ok ht
    hw.want (fun c hc => (hview c hc).trans (h.view c hc)) (fun _ => ?_) ⟨fun _ => hlen, ?_⟩ nofun
  · refine ⟨by rw [hstart, hhead], fun c => ?_⟩
    rw [hw.dirty]
    exact ⟨fun hc => (hdirty c).mp hc.1, fun hc => ⟨(hdirty c).mpr hc, hne c (h.home c hc)⟩⟩
  · intro k hk c hc
    have hchome : Home start c := h.home c (List.mem_of_getElem? hc)
    rw [hview c hchome, hw.disk]
    by_cases ek : k = tail
    · rw [ek] at hc ⊢
      rw [hb] at hc
      cases hc
      rw [update_self]
    · rw [update_of_ne (by omega)]
      exact hphase.2 k (by omega) c hc

theorem Ready.head {tail : ℕ} (h : Ready start disk0 s) (hp : s.ops.procs p = .writeLog tail)
    (hb : s.ops.log.block[tail]? = none)
    (e : writeHead s.mem p start s.ops.log.block = .ok m) :
    Durable start m.disk (contents disk0 (s.history ++ [.commit])) ∧
    Ready start disk0 { s with
      ops := { s.ops with
        procs := update s.ops.procs p (.install 0)
        events := s.ops.events ++ [.commit s.ops.log.block] }
      mem := m
      history := s.history ++ [.commit] } := by
  have hpc : (s.ops.procs p).inCommit = true := by rw [hp]; rfl
  have htail : s.ops.log.block.length ≤ tail := List.getElem?_eq_none_iff.mp hb
  obtain ⟨hhead, hdirty⟩ := h.quiet_of hpc (by rw [hp]; rfl)
  have hphase : Phase start s (.writeLog tail) := hp ▸ h.phase p
  obtain ⟨hw, ht⟩ := writeHead_writes h.mem (h.want p hpc) (h.not_touched_by_commit hpc) e
  have hlen : s.ops.log.block.length < nlog := by
    by_cases h0 : s.ops.log.block.length = 0
    · rw [h0]; decide
    · exact hphase.1 (by omega)
  have hsmall : ∀ b ∈ s.ops.log.block, b < FSSIZE := by
    intro b hb
    obtain ⟨i, hi, hid⟩ := (hdirty b).mpr hb
    have hv := (h.mem.buf i).dirty hid
    rw [← hi.2]
    exact (h.mem.buf i).small hv.1 hv.2
  have hview : ∀ c, Home start c → Bio.view m c = Bio.view s.mem c := by
    intro c hc
    rw [hw.view, update_of_ne hc.ne_start]
  have hslot : ∀ k b, s.ops.log.block[k]? = some b →
      s.mem.disk (start + k + 1) = Bio.view s.mem b := by
    intro k b hk
    exact hphase.2 k (lt_of_lt_of_le (List.getElem?_eq_some_iff.mp hk).1 htail) b hk
  constructor
  · rw [hw.disk, contents_commit]
    refine Durable.head _ h.nodup h.home hsmall hlen (fun k b hk => ?_) fun b hbh hbl => ?_
    · rw [hslot k b hk, h.view b (h.home b (List.mem_of_getElem? hk))]
    · rw [← h.view b hbh, h.view_eq_disk hpc fun hd => hbl ((hdirty b).mp hd)]
  · refine h.commits hpc (LogOps.step_inv (.head hp (Nat.not_lt.mpr htail)) h.ops) rfl rfl h.nodup
      h.home hw.ok ht hw.want (fun c hc => ?_) nofun ⟨?_, fun k b hk => ?_, fun b => ?_⟩ fun _ => ?_
    · rw [latest_commit, hview c hc, h.view c hc]
    · rw [hw.disk, update_self]
      exact readHeader_writeHeader (hlen.trans (by decide))
        fun b hb => (hsmall b hb).trans (by decide)
    · rw [hview b (h.home b (List.mem_of_getElem? hk)), hw.disk, update_of_ne (by omega)]
      exact hslot k b hk
    · rw [hw.dirty, List.drop_zero]
      exact ⟨fun hc => (hdirty b).mp hc.1, fun hc => ⟨(hdirty b).mpr hc, (h.home b hc).ne_start⟩⟩
    · rw [latest_commit, contents_commit]

theorem Ready.install {tail b : ℕ} (h : Ready start disk0 s)
    (hd : Durable start s.mem.disk (contents disk0 s.history))
    (hp : s.ops.procs p = .install tail) (hb : s.ops.log.block[tail]? = some b)
    (e : installTrans s.mem p (start + tail + 1) b = .ok m) :
    Durable start m.disk (contents disk0 s.history) ∧
    Ready start disk0 { s with
      ops := { s.ops with procs := update s.ops.procs p (.install (tail + 1)) }
      mem := m } := by
  have hpc : (s.ops.procs p).inCommit = true := by rw [hp]; rfl
  obtain ⟨hlt, hbt⟩ := List.getElem?_eq_some_iff.mp hb
  have hbhome : Home start b := h.home b (hbt ▸ List.getElem_mem hlt)
  obtain ⟨hhead, hslots, hdirty⟩ : Phase start s (.install tail) := hp ▸ h.phase p
  have hlen : s.ops.log.block.length < nlog := hhead ▸ hd.length
  have hslot : ∀ k, k < s.ops.log.block.length → k + 1 < nlog := fun k hk => lt_of_le_of_lt hk hlen
  obtain ⟨hw, ht⟩ := installTrans_writes h.mem (h.want p hpc) (h.not_touched_by_commit hpc)
    (hbhome.ne_slot (hslot tail hlt)).symm e
  have hclean : ¬ Dirty s.mem (start + tail + 1) := by
    intro hc
    exact (h.home _ (List.mem_of_mem_drop ((hdirty _).mp hc))).ne_slot (hslot tail hlt) rfl
  have hsame : Bio.view s.mem (start + tail + 1) = Bio.view s.mem b := by
    rw [h.view_eq_disk hpc hclean, hslots tail b hb]
  rw [hsame, WritesBlock, update_eq_self] at hw
  refine ⟨by rw [hw.disk]; exact hd.install (hhead ▸ hb) _, ?_⟩
  refine h.commits hpc (LogOps.step_inv (.install hp hlt) h.ops) rfl rfl h.nodup h.home hw.ok ht
    hw.want (by rw [hw.view]; exact h.view) nofun ⟨?_, fun k c hk => ?_, fun c => ?_⟩
    fun _ => h.settled p (by rw [hp]; rfl)
  · rw [hw.disk, update_of_ne hbhome.ne_start.symm, hhead]
  · have hk' := (List.getElem?_eq_some_iff.mp hk).1
    rw [hw.disk, hw.view, update_of_ne (hbhome.ne_slot (hslot k hk')).symm]
    exact hslots k c hk
  · rw [hw.dirty]
    have hdrop : s.ops.log.block.drop tail = b :: s.ops.log.block.drop (tail + 1) := by
      rw [List.drop_eq_getElem_cons hlt, hbt]
    have hn : b ∉ s.ops.log.block.drop (tail + 1) := by
      have := h.nodup.sublist (List.drop_sublist tail s.ops.log.block)
      rw [hdrop] at this
      exact (List.nodup_cons.mp this).1
    show (Dirty s.mem c ∧ c ≠ b) ↔ _
    rw [hdirty c, hdrop, List.mem_cons]
    constructor
    · rintro ⟨rfl | hc, hne⟩
      · exact absurd rfl hne
      · exact hc
    · exact fun hc => ⟨Or.inr hc, fun ec => hn (ec ▸ hc)⟩

theorem Ready.clear {tail : ℕ} (h : Ready start disk0 s) (hp : s.ops.procs p = .install tail)
    (hb : s.ops.log.block[tail]? = none) :
    Ready start disk0 { s with
      ops := { s.ops with
        log := { s.ops.log with block := [] }
        procs := update s.ops.procs p .clearHead } } := by
  have hpc : (s.ops.procs p).inCommit = true := by rw [hp]; rfl
  have htail : s.ops.log.block.length ≤ tail := List.getElem?_eq_none_iff.mp hb
  obtain ⟨-, -, hdirty⟩ : Phase start s (.install tail) := hp ▸ h.phase p
  refine h.commits hpc (LogOps.step_inv (.clear hp (Nat.not_lt.mpr htail)) h.ops) rfl rfl
    List.nodup_nil nofun h.mem rfl rfl h.view nofun ⟨rfl, fun b hb => ?_⟩
    fun _ => h.settled p (by rw [hp]; rfl)
  have hmem := (hdirty b).mp hb
  rw [List.drop_eq_nil_of_le htail] at hmem
  cases hmem

theorem Ready.clearHead (h : Ready start disk0 s) (hp : s.ops.procs p = .clearHead)
    (e : writeHead s.mem p start s.ops.log.block = .ok m) :
    Durable start m.disk (contents disk0 s.history) ∧
    Ready start disk0 { s with
      ops := { s.ops with procs := update s.ops.procs p .done }
      mem := m } := by
  have hpc : (s.ops.procs p).inCommit = true := by rw [hp]; rfl
  obtain ⟨hblock, hclean⟩ : Phase start s .clearHead := hp ▸ h.phase p
  obtain ⟨hw, ht⟩ := writeHead_writes h.mem (h.want p hpc) (h.not_touched_by_commit hpc) e
  rw [hblock] at hw
  constructor
  · rw [hw.disk]
    refine Durable.head _ List.nodup_nil nofun nofun (by decide) nofun fun b hb _ => ?_
    rw [← h.settled p (by rw [hp]; rfl), ← h.view b hb, h.view_eq_disk hpc (hclean b)]
  · refine h.commits hpc (LogOps.step_inv (.clearHead hp) h.ops) rfl rfl h.nodup h.home hw.ok ht
      hw.want (fun c hc => ?_) (fun _ => ⟨?_, fun b => ?_⟩) trivial nofun
    · rw [hw.view, update_of_ne hc.ne_start, h.view c hc]
    · rw [hw.disk, update_self]
      exact readHeader_writeHeader (by decide) nofun
    · rw [hw.dirty]
      show Dirty s.mem b ∧ b ≠ start ↔ b ∈ s.ops.log.block
      rw [hblock]
      exact ⟨fun hc => absurd hc.1 (hclean b), nofun⟩

end Commit

end DuckoUnix.LogCrash
