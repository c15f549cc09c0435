import DuckoUnix.Ide.Queue

/-!
# The driver refines the memory disk

`Inv` ties a state of the driver to its queue `q` and to the state `m` that `memide.c` reaches by
the requests served so far. The queue is what was requested and not yet served; the drive works on
its head; the buffers are those of `m`, and so is the disk, except that the data of a write land
when the drive is done and `m` makes the write when the interrupt is served.
-/

namespace DuckoUnix.Ide

open Lib Function

variable {s s' : State} {m m' m₀ : Mem} {q : List B} {b : B} {p : Fin NPROC} {e v : Buf}

/-- The disk once the drive has finished: `disk` with the data of a write that is done. -/
def Drive.landed (disk : ℕ → Block) : Drive → ℕ → Block
  | .done c _ =>
    match c.write with
    | some d => update disk c.sector d
    | none => disk
  | _ => disk

def served (hist : List MAct) : List B :=
  hist.filterMap fun
    | .prep _ _ => none
    | .iderw b => some b

theorem served_prep {hist : List MAct} : served (hist ++ [.prep b v]) = served hist := by
  unfold served
  rw [List.filterMap_append]
  exact List.append_nil _

theorem served_iderw {hist : List MAct} : served (hist ++ [.iderw b]) = served hist ++ [b] := by
  unfold served
  rw [List.filterMap_append]
  rfl

/-! ## The invariant -/

/-- The driver in state `s` with the queue `q` against the memory disk in state `m`. -/
structure Inv (m₀ : Mem) (s : State) (q : List B) (m : Mem) : Prop extends Queue s q where
  fifo : s.requests = served s.hist ++ q
  /-- the data of a read that is done are at the port -/
  port : ∀ b r c port, q = b :: r → s.drive = .done c port → (s.bufs b).dirty = false →
    port = s.disk true (s.bufs b).blockno
  mem : run Mem.step m₀ s.hist = some m
  bufs : m.bufs = s.bufs
  disk : s.disk true = s.drive.landed m.disk

theorem Drive.landed_working {d : Drive} {disk : ℕ → Block} (h : d = .idle ∨ ∃ c, d = .working c) :
    d.landed disk = disk := by
  rcases h with rfl | ⟨c, rfl⟩ <;> rfl

theorem Inv.init (h : s.Init) : Inv ⟨s.bufs, s.disk true⟩ s [] ⟨s.bufs, s.disk true⟩ := by
  apply Inv.mk (Queue.init h)
  · rw [h.requests, h.hist]
    rfl
  · exact fun _ _ _ _ hq => nomatch hq
  · rw [h.hist]
    rfl
  · rfl
  · rw [h.drive]
    rfl

theorem Inv.prep (h : Inv m₀ s q m) (hs : step s (.prep b v) = some s') :
    ∃ m', Inv m₀ s' q m' := by
  rw [step] at hs
  split at hs
  case isFalse => cases hs
  case isTrue hb =>
    cases hs
    have hq := h.not_mem hb
    refine ⟨{ m with bufs := update m.bufs b v }, ?_⟩
    apply Inv.mk (h.toQueue.prep hb)
    · rw [served_prep]
      exact h.fifo
    · intro c r cmd port hr hd
      have hne : c ≠ b := fun e => hq (by rw [hr, e]; exact List.mem_cons_self)
      dsimp only
      rw [update_of_ne hne]
      exact h.port c r cmd port hr hd
    · rw [run_append, h.mem]
      rfl
    · rw [h.bufs]
    · exact h.disk

theorem Inv.iderw (h : Inv m₀ s q m) (hs : step s (.iderw p b) = some s') :
    Inv m₀ s' (q ++ [b]) m := by
  obtain ⟨heff, hqueue⟩ := h.toQueue.iderw hs
  apply Inv.mk hqueue
  · rw [heff.requests, heff.hist, h.fifo, List.append_assoc]
  · intro c r cmd port hr hd
    cases q with
    | nil =>
      obtain ⟨cmd', -, hworking⟩ := heff.idle rfl
      rw [hworking] at hd
      cases hd
    | cons x q =>
      obtain rfl := (List.cons.inj hr).1
      rw [heff.busy (List.cons_ne_nil _ _)] at hd
      rw [heff.bufs, heff.disk]
      exact h.port x q cmd port rfl hd
  · rw [heff.hist]
    exact h.mem
  · rw [heff.bufs]
    exact h.bufs
  · rw [heff.disk, h.disk]
    by_cases hnil : q = []
    · obtain ⟨cmd, -, hworking⟩ := heff.idle hnil
      rw [hworking, h.idle hnil]
      rfl
    · rw [heff.busy hnil]

theorem Inv.drive (h : Inv m₀ s q m) (hs : step s .drive = some s') : Inv m₀ s' q m := by
  rw [step] at hs
  cases hd : s.drive with
  | idle => rw [hd] at hs; cases hs
  | done c port => rw [hd] at hs; cases hs
  | working c =>
    rw [hd] at hs
    obtain ⟨b, r, rfl, -, hunit, hsector, hwrite⟩ := h.command (.inl hd)
    have hdisk : s.disk true = m.disk := by rw [h.disk, hd]; rfl
    dsimp only at hs
    cases hdirty : (s.bufs b).dirty with
    | false =>
      rw [hdirty, if_neg Bool.false_ne_true] at hwrite
      rw [hwrite] at hs
      cases hs
      apply Inv.mk (h.finished hd) h.fifo
      · intro x r' c' port hr hdone _
        obtain rfl := (List.cons.inj hr).1
        cases hdone
        show s.disk c.unit c.sector = _
        rw [hunit, hsector]
      · exact h.mem
      · exact h.bufs
      · show s.disk true = Drive.landed m.disk (.done c _)
        rw [Drive.landed, hwrite]
        exact hdisk
    | true =>
      rw [hdirty, if_pos rfl] at hwrite
      rw [hwrite] at hs
      cases hs
      apply Inv.mk (h.finished hd) h.fifo
      · intro x r' c' port hr _ hclean
        obtain rfl := (List.cons.inj hr).1
        rw [show (s.bufs b).dirty = false from hclean] at hdirty
        cases hdirty
      · exact h.mem
      · exact h.bufs
      · show update s.disk c.unit _ true = Drive.landed m.disk (.done c _)
        rw [Drive.landed, hwrite, hunit, update_self, hdisk]

theorem memiderw_eq (hc : ¬ (m.bufs b).Clean) (hdev : (m.bufs b).dev = 1)
    (hblk : (m.bufs b).blockno < FSSIZE) : memiderw m b = some {
      bufs := update m.bufs b ((m.bufs b).finish (m.disk (m.bufs b).blockno))
      disk := if (m.bufs b).dirty then
          update m.disk (m.bufs b).blockno (m.bufs b).data
        else m.disk } := by
  unfold memiderw Buf.finish
  dsimp only
  rw [if_neg hc, if_neg (not_not.mpr hdev), if_neg (Nat.not_le.mpr hblk)]
  cases hdirty : (m.bufs b).dirty with
  | true => rfl
  | false =>
    rw [if_neg Bool.false_ne_true, if_neg Bool.false_ne_true, if_neg Bool.false_ne_true, ← hdirty]

theorem Inv.intr (h : Inv m₀ s q m) (hs : step s .intr = some s') :
    ∃ b r m', q = b :: r ∧ Inv m₀ s' r m' := by
  rw [step] at hs
  cases hd : s.drive with
  | idle => rw [hd] at hs; cases hs
  | working c => rw [hd] at hs; cases hs
  | done c port =>
    rw [hd] at hs
    obtain ⟨b, r, rfl, -, -, hsector, hwrite⟩ := h.command (.inr ⟨port, hd⟩)
    obtain ⟨hdirtyb, hdev, hblk⟩ := h.ready b List.mem_cons_self
    obtain ⟨t, ht, heff⟩ := ideintr_effect port h.toQueue
    obtain rfl : t = s' := Option.some.inj (ht.symm.trans hs)
    have hmem := memiderw_eq (m := m) (b := b) (by rw [h.bufs]; exact hdirtyb)
      (by rw [h.bufs]; exact hdev) (by rw [h.bufs]; exact hblk)
    rw [h.bufs] at hmem
    -- the write that `memide.c` makes now is the one that has landed
    have hland : (if (s.bufs b).dirty then
        update m.disk (s.bufs b).blockno (s.bufs b).data else m.disk) = s.disk true := by
      rw [h.disk, hd, Drive.landed, hwrite, hsector]
      cases (s.bufs b).dirty <;> rfl
    -- and the data that it reads are those at the port
    have hread : (s.bufs b).finish (m.disk (s.bufs b).blockno) = (s.bufs b).finish port := by
      cases hdirty : (s.bufs b).dirty with
      | true =>
        unfold Buf.finish
        rw [hdirty, if_pos rfl, if_pos rfl]
      | false =>
        rw [hdirty, if_neg Bool.false_ne_true] at hland
        rw [h.port b r c port rfl hd hdirty, hland]
    rw [hland, hread] at hmem
    have hnext := heff.drive
    refine ⟨b, r, ⟨update s.bufs b ((s.bufs b).finish port), s.disk true⟩, rfl, ?_⟩
    apply Inv.mk (heff.queue h.toQueue)
    · rw [heff.requests, heff.hist, served_iderw, h.fifo, List.append_assoc]
      rfl
    · intro x r' c' port' _ hdone
      rw [hdone] at hnext
      rcases hnext with hnext | ⟨c, hnext⟩ <;> cases hnext
    · rw [heff.hist, run_append, h.mem]
      exact (run_singleton _ _).trans hmem
    · exact heff.bufs.symm
    · rw [heff.disk, Drive.landed_working hnext]

theorem Inv.at_place {place : Fin NPROC → Place} (h : Inv m₀ s q m)
    (hq : Queue { s with place := place } q) : Inv m₀ { s with place := place } q m :=
  ⟨hq, h.fifo, h.port, h.mem, h.bufs, h.disk⟩

theorem Inv.step {a : Act} (h : Inv m₀ s q m) (hs : step s a = some s') :
    ∃ q' m', Inv m₀ s' q' m' := by
  cases a with
  | prep b v =>
    obtain ⟨m', h'⟩ := h.prep hs
    exact ⟨q, m', h'⟩
  | iderw p b => exact ⟨_, m, h.iderw hs⟩
  | drive => exact ⟨q, m, h.drive hs⟩
  | intr =>
    obtain ⟨b, r, m', -, h'⟩ := h.intr hs
    exact ⟨r, m', h'⟩
  | kick p =>
    obtain ⟨b, -, -, rfl, hq⟩ := h.toQueue.kick hs
    exact ⟨q, m, h.at_place hq⟩
  | wake p =>
    obtain ⟨b, hp⟩ := woken_of_wake hs
    obtain ⟨l, hl, hq, -⟩ := h.toQueue.wake hp
    obtain rfl := Option.some.inj (hl.symm.trans hs)
    exact ⟨q, m, h.at_place hq⟩

theorem inv_of_run {s₀ : State} {acts : List Act} (h₀ : s₀.Init)
    (h : run Ide.step s₀ acts = some s) : ∃ q m, Inv ⟨s₀.bufs, s₀.disk true⟩ s q m :=
  run_invariant' (I := fun s => ∃ q m, Inv ⟨s₀.bufs, s₀.disk true⟩ s q m)
    (fun _ _ _ ⟨_, _, hI⟩ hs => hI.step hs) ⟨[], _, Inv.init h₀⟩ h

/-- The driver makes progress: while there is a request, the drive or the interrupt can be next. -/
theorem Inv.progress (h : Inv m₀ s q m) (hq : q ≠ []) :
    (∃ s', Ide.step s .drive = some s') ∨ ∃ s', Ide.step s .intr = some s' := by
  cases q with
  | nil => exact absurd rfl hq
  | cons b r =>
    obtain ⟨c, -, hworking | ⟨port, hdone⟩⟩ := h.head b r rfl
    · left
      rw [Ide.step, hworking]
      dsimp only
      cases c.write with
      | none => exact ⟨_, rfl⟩
      | some d => exact ⟨_, rfl⟩
    · right
      obtain ⟨t, ht, -⟩ := ideintr_effect port h.toQueue
      rw [Ide.step, hdone]
      exact ⟨t, ht⟩

/-- In every state that is reached from an idle driver, with `q` the nodes of `idequeue`:
what was requested is what was served, in order, followed by `q`; the drive works on the head of `q`
and is idle only if there is none, and it can go on; a request of an idle process for an unused
buffer is accepted; a process sleeps only while its buffer is in `q`, and one that is woken returns
if and only if its buffer is not, with the buffer valid and not dirty; and `memide.c` gets by the
same requests to the same buffers and, up to the write the drive has just finished, the same disk. -/
theorem ide_refines_memide {s₀ s : State} {acts : List Act} (h₀ : s₀.Init)
    (h : run Ide.step s₀ acts = some s) : ∃ q m, Chain s.qnext s.idequeue q ∧ q.Nodup ∧
    s.requests = served s.hist ++ q ∧
    (q = [] → s.drive = .idle) ∧
    (∀ b r, q = b :: r → ∃ c, idestart (s.bufs b) = some c ∧
      (s.drive = .working c ∨ ∃ port, s.drive = .done c port)) ∧
    (q ≠ [] → (∃ s', Ide.step s .drive = some s') ∨ ∃ s', Ide.step s .intr = some s') ∧
    (∀ p b, s.place p = .out → s.Unused b → (s.bufs b).dev = 1 → (s.bufs b).blockno < FSSIZE →
      ¬ (s.bufs b).Clean → ∃ s', Ide.step s (.iderw p b) = some s') ∧
    (∀ p b, s.place p = .asleep b → b ∈ q) ∧
    (∀ p b, s.place p = .woken b → ∃ s', Ide.step s (.wake p) = some s' ∧
      (s'.place p = .out ↔ b ∉ q) ∧ (b ∉ q → (s.bufs b).Clean)) ∧
    run Mem.step ⟨s₀.bufs, s₀.disk true⟩ s.hist = some m ∧ m.bufs = s.bufs ∧
    s.disk true = s.drive.landed m.disk := by
  obtain ⟨q, m, hI⟩ := inv_of_run h₀ h
  refine ⟨q, m, hI.chain, hI.nodup, hI.fifo, hI.idle, hI.head, hI.progress, ?_, hI.asleep, ?_,
    hI.mem, hI.bufs, hI.disk⟩
  · intro p b hout hun hdev hblk hc
    obtain ⟨t, ht, -⟩ := iderw_effect (p := p) hI.toQueue hun hdev hblk hc
    rw [Ide.step, if_pos ⟨hout, hun, hdev, hblk⟩]
    exact ⟨t, ht⟩
  · intro p b hp
    obtain ⟨l, hl, -, hplace⟩ := hI.toQueue.wake hp
    refine ⟨_, hl, ?_, hI.woken p b hp⟩
    dsimp only
    rw [update_self]
    rcases hplace with ⟨rfl, hq⟩ | ⟨rfl, hq⟩
    · exact ⟨fun _ => hq, fun _ => rfl⟩
    · constructor
      · intro hout
        cases hout
      · intro hn
        exact absurd hq hn

def idleState : State where
  bufs _ := ⟨1, 0, false, false, fun _ => 0⟩
  qnext _ := none
  idequeue := none
  drive := .idle
  disk _ _ := fun _ => 7
  place _ := .out
  requests := []
  hist := []

/-- Two processes read into two buffers; the first read is served and its process returns. -/
def twoReads : List Act :=
  [.iderw ⟨0, nproc_pos⟩ ⟨3, by decide⟩, .iderw ⟨1, one_lt_nproc⟩ ⟨5, by decide⟩, .drive, .intr,
    .wake ⟨0, nproc_pos⟩]

theorem ide_refines_memide_twoReads : ∃ s, run Ide.step idleState twoReads = some s ∧
    s.requests = served s.hist ++ [⟨5, by decide⟩] ∧ s.place ⟨0, by decide⟩ = .out := by
  have h₀ : idleState.Init := ⟨rfl, rfl, fun _ => rfl, rfl, rfl⟩
  have hrun : (run Ide.step idleState twoReads).map
      (fun s => (s.idequeue, s.qnext ⟨5, by decide⟩, s.place ⟨0, by decide⟩)) =
        some (some ⟨5, by decide⟩, none, .out) := by
    decide +kernel
  obtain ⟨s, hs, hfields⟩ := Option.map_eq_some_iff.mp hrun
  obtain ⟨hhead, hrest⟩ := Prod.mk.inj hfields
  obtain ⟨hnext, hplace⟩ := Prod.mk.inj hrest
  obtain ⟨q, m, hchain, -, hfifo, -⟩ := ide_refines_memide h₀ hs
  have hq : Chain s.qnext s.idequeue [⟨5, by decide⟩] := ⟨hhead, hnext⟩
  exact ⟨s, hs, by rw [hfifo, hchain.unique hq], hplace⟩

end DuckoUnix.Ide
