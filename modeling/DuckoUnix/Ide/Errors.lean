import DuckoUnix.Ide.Refine

/-!
# Errors of the drive

`ide.c` with a drive that may end any command with `IDE_DF` or `IDE_ERR`. After such an end a read
has transferred nothing, and a write has left anything at all in its sector. `ideintr` looks at the
status of a read only, to decide whether to fetch the data, and sets `B_VALID` and clears `B_DIRTY`
in any case.

`Sane` follows the requests for which no error was reported: once they are served, buffer and disk
agree, as long as no other process in `iderw` has a buffer of the same block. The buffer cache has
one buffer for a block.
-/

namespace DuckoUnix.Ide.Errors

open Lib Function

/-! ## The driver and a drive with errors -/

structure State where
  drv : Ide.State
  /-- `IDE_DF|IDE_ERR` in the status register -/
  err : Bool
  /-- an error was reported for the last request for the buffer; no code reads this -/
  failed : B → Bool

/-- The interrupt handler, with `err` in the status register and `port` at port 0x1f0; none if it
panics. -/
def ideintr (s : Ide.State) (err : Bool) (port : Block) : Option Ide.State :=
  match s.idequeue with
  | none => some { s with drive := .idle }
  | some b =>
    let e := s.bufs b
    -- `!(b->flags & B_DIRTY) && idewait(1) >= 0`
    let data := if !e.dirty && !err then port else e.data
    let t := wakeup { s with
      idequeue := s.qnext b
      drive := .idle
      bufs := update s.bufs b { e with data := data, valid := true, dirty := false }
      hist := s.hist ++ [.iderw b] } b
    match t.idequeue with
    | none => some t
    | some b' => (idestart (t.bufs b')).map fun c => { t with drive := .working c }

inductive Act
  /-- a step without an error of the drive -/
  | ok (a : Ide.Act)
  /-- the drive ends its command with an error and raises the interrupt; `d` is what a write leaves
  in the sector -/
  | fail (d : Block)

def failed (s : State) (c : Cmd) (d : Block) : State where
  drv := { s.drv with
    drive := .done c d
    disk := match c.write with
      | none => s.drv.disk
      | some _ => update s.drv.disk c.unit
          (update (s.drv.disk c.unit) c.sector d) }
  err := true
  failed := match s.drv.idequeue with
    | none => s.failed
    | some b => update s.failed b true

/-- One step; none if it cannot be taken, or if the code panics. -/
def step (s : State) : Act → Option State
  | .ok (.iderw p b) => (Ide.step s.drv (.iderw p b)).map fun t =>
      { s with drv := t, failed := update s.failed b false }
  | .ok .drive => (Ide.step s.drv .drive).map fun t => { s with drv := t, err := false }
  | .ok .intr =>
    match s.drv.drive with
    | .done _ port => (ideintr s.drv s.err port).map fun t => { s with drv := t }
    | _ => none
  | .ok a => (Ide.step s.drv a).map fun t => { s with drv := t }
  | .fail d =>
    match s.drv.drive with
    | .working c => some (failed s c d)
    | _ => none

/-- A request is for a block that no other buffer in `iderw` has. -/
def Apart (s : State) : Act → Prop
  | .ok (.iderw _ b) =>
    ∀ c, ¬ s.drv.Unused c → (s.drv.bufs c).blockno ≠ (s.drv.bufs b).blockno
  | _ => True

instance (s : State) (a : Act) : Decidable (Apart s a) := by
  unfold Apart
  split <;> infer_instance

variable {s s' : State} {q r : List B} {b : B} {p : Fin NPROC} {v : Buf} {c : Cmd}

theorem ideintr_eq {d : Ide.State} (h : d.idequeue = some b) (err : Bool) (port : Block) :
    ideintr d err port = Ide.ideintr d (if err then (d.bufs b).data else port) := by
  have hdata : (if !(d.bufs b).dirty && !err then port else (d.bufs b).data) =
      if (d.bufs b).dirty then (d.bufs b).data else if err then (d.bufs b).data else port := by
    cases (d.bufs b).dirty <;> cases err <;> rfl
  unfold ideintr Ide.ideintr
  rw [h]
  dsimp only
  exact hdata ▸ rfl

/-! ## What holds of the requests without an error -/

/-- The queue is `q`, and where no error was reported buffer and disk agree. -/
structure Sane (s : State) (q : List B) : Prop where
  queue : Queue s.drv q
  apart : ∀ b c, ¬ s.drv.Unused b → ¬ s.drv.Unused c → b ≠ c →
    (s.drv.bufs b).blockno ≠ (s.drv.bufs c).blockno
  /-- what the interrupt will leave in the buffer of the command that is done -/
  done : ∀ b r c port, q = b :: r → s.drv.drive = .done c port → s.failed b = false →
    s.err = false ∧ ((s.drv.bufs b).finish port).data = s.drv.disk true (s.drv.bufs b).blockno
  served : ∀ p b, s.drv.place p = .woken b → b ∉ q → s.failed b = false →
    (s.drv.bufs b).data = s.drv.disk true (s.drv.bufs b).blockno

theorem used_of_woken {d : Ide.State} (h : d.place p = .woken b) : ¬ d.Unused b := by
  intro hu
  apply hu p
  rw [h]
  rfl

theorem Sane.init (h : s.drv.Init) : Sane s [] where
  queue := Queue.init h
  apart := fun b _ hb => absurd (fun p => by simp [h.place p, Place.buf]) hb
  done := fun _ _ _ _ hq => nomatch hq
  served := fun p b hp => by rw [h.place p] at hp; cases hp

theorem Sane.prep (h : Sane s q) (hs : step s (.ok (.prep b v)) = some s') : Sane s' q := by
  obtain ⟨t, ht, rfl⟩ := Option.map_eq_some_iff.mp hs
  rw [Ide.step] at ht
  split at ht
  case isFalse => cases ht
  case isTrue hb =>
    cases ht
    have hkeep : ∀ x, ¬ s.drv.Unused x → update s.drv.bufs b v x = s.drv.bufs x :=
      fun x hx => update_of_ne (fun e : x = b => hx (e ▸ hb)) _ _
    refine ⟨h.queue.prep hb, ?_, ?_, ?_⟩
    · intro x y hx hy hxy
      dsimp only
      rw [hkeep x hx, hkeep y hy]
      exact h.apart x y hx hy hxy
    · intro x r c port hq hd
      dsimp only
      rw [hkeep x (h.queue.held x (by rw [hq]; exact List.mem_cons_self))]
      exact h.done x r c port hq hd
    · intro p x hp hx
      dsimp only
      rw [hkeep x (used_of_woken hp)]
      exact h.served p x hp hx

theorem Sane.iderw (h : Sane s q) (hap : Apart s (.ok (.iderw p b)))
    (hs : step s (.ok (.iderw p b)) = some s') : Sane s' (q ++ [b]) := by
  obtain ⟨t, ht, rfl⟩ := Option.map_eq_some_iff.mp hs
  obtain ⟨hout, hun, -⟩ := iderw_guard ht
  obtain ⟨heff, hqueue⟩ := h.queue.iderw ht
  have hkeep : ∀ x, x ≠ b → update s.failed b false x = s.failed x := fun x hx =>
    update_of_ne hx _ _
  -- the only process that is new in `iderw` has the buffer `b`
  have hused : ∀ x, ¬ t.Unused x → x = b ∨ ¬ s.drv.Unused x := by
    intro x hx
    by_contra hne
    obtain ⟨hxb, hu⟩ := not_or.mp hne
    rw [not_not] at hu
    apply hx
    intro p'
    rw [heff.place]
    by_cases e : p' = p
    · rw [e, update_self]
      exact fun hbuf => hxb (Option.some.inj hbuf).symm
    · rw [update_of_ne e]
      exact hu p'
  refine ⟨hqueue, ?_, ?_, ?_⟩
  · intro x y hx hy hxy
    dsimp only at hx hy ⊢
    rw [heff.bufs]
    rcases hused x hx with rfl | hx
    · rcases hused y hy with rfl | hy
      · exact absurd rfl hxy
      · exact (hap y hy).symm
    · rcases hused y hy with rfl | hy
      · exact hap x hx
      · exact h.apart x y hx hy hxy
  · intro x r' c port hq hd hf
    dsimp only at hd hf ⊢
    cases q with
    | nil =>
      obtain ⟨c', -, hworking⟩ := heff.idle rfl
      rw [hworking] at hd
      cases hd
    | cons y q =>
      obtain rfl := (List.cons.inj hq).1
      have hy : y ≠ b := fun e => h.queue.not_mem hun (by rw [e]; exact List.mem_cons_self)
      rw [heff.busy (List.cons_ne_nil _ _)] at hd
      rw [hkeep y hy] at hf
      rw [heff.bufs, heff.disk]
      exact h.done y q c port rfl hd hf
  · intro p' x hp' hx hf
    dsimp only at hp' hf ⊢
    have hxb : x ≠ b := fun e => hx (List.mem_append_right _ (by rw [e]; exact List.mem_cons_self))
    have hp : p' ≠ p := by
      rintro rfl
      rw [heff.place, update_self] at hp'
      cases hp'
    rw [heff.place, update_of_ne hp] at hp'
    rw [hkeep x hxb] at hf
    rw [heff.bufs, heff.disk]
    exact h.served p' x hp' (fun hq => hx (List.mem_append_left _ hq)) hf

/-- The drive ends a command: it changes no block but that of the head. -/
theorem Sane.finished {disk : Bool → ℕ → Block} {port : Block} {err : Bool} {fl : B → Bool}
    (h : Sane s (b :: r)) (hd : s.drv.drive = .working c)
    (hdisk : ∀ n, n ≠ (s.drv.bufs b).blockno → disk true n = s.drv.disk true n)
    (hfl : ∀ x, x ≠ b → fl x = s.failed x)
    (hdone : fl b = false →
      err = false ∧ ((s.drv.bufs b).finish port).data = disk true (s.drv.bufs b).blockno) :
    Sane ⟨{ s.drv with drive := .done c port, disk := disk }, err, fl⟩ (b :: r) := by
  refine ⟨h.queue.finished hd, h.apart, ?_, ?_⟩
  · intro x r' c' port' hq hdrive hf
    obtain rfl := (List.cons.inj hq).1
    cases hdrive
    exact hdone hf
  · intro p x hp hx hf
    have hxb : x ≠ b := fun e => hx (by rw [e]; exact List.mem_cons_self)
    have hb := h.queue.held b List.mem_cons_self
    dsimp only at hf ⊢
    rw [hfl x hxb] at hf
    rw [hdisk _ (h.apart x b (used_of_woken hp) hb hxb)]
    exact h.served p x hp hx hf

theorem Sane.drive (h : Sane s q) (hs : step s (.ok .drive) = some s') : Sane s' q := by
  obtain ⟨t, ht, rfl⟩ := Option.map_eq_some_iff.mp hs
  rw [Ide.step] at ht
  cases hd : s.drv.drive with
  | idle => rw [hd] at ht; cases ht
  | done c port => rw [hd] at ht; cases ht
  | working c =>
    rw [hd] at ht
    obtain ⟨b, r, rfl, -, hunit, hsector, hwrite⟩ := h.queue.command (.inl hd)
    dsimp only at ht
    cases hdirty : (s.drv.bufs b).dirty with
    | false =>
      rw [hdirty, if_neg Bool.false_ne_true] at hwrite
      rw [hwrite] at ht
      cases ht
      apply h.finished hd (fun _ _ => rfl) (fun _ _ => rfl)
      intro _
      refine ⟨rfl, ?_⟩
      show (if (s.drv.bufs b).dirty then _ else s.drv.disk c.unit c.sector) = _
      rw [hdirty, if_neg Bool.false_ne_true, hunit, hsector]
    | true =>
      rw [hdirty, if_pos rfl] at hwrite
      rw [hwrite] at ht
      cases ht
      apply h.finished hd
      · intro n hn
        rw [hunit, update_self, hsector, update_of_ne hn]
      · exact fun _ _ => rfl
      · intro _
        refine ⟨rfl, ?_⟩
        show (if (s.drv.bufs b).dirty then (s.drv.bufs b).data else _) = _
        rw [hdirty, if_pos rfl, hunit, update_self, hsector, update_self]

theorem Sane.fail {d : Block} (h : Sane s q) (hs : step s (.fail d) = some s') : Sane s' q := by
  rw [step] at hs
  cases hd : s.drv.drive with
  | idle => rw [hd] at hs; cases hs
  | done c port => rw [hd] at hs; cases hs
  | working c =>
    rw [hd] at hs
    obtain rfl := Option.some.inj hs
    obtain ⟨b, r, rfl, -, hunit, hsector, -⟩ := h.queue.command (.inl hd)
    have hhead : s.drv.idequeue = some b := h.queue.chain.1
    unfold Errors.failed
    rw [hhead]
    apply h.finished hd
    · intro n hn
      cases c.write with
      | none => rfl
      | some _ =>
        dsimp only
        rw [hunit, update_self, hsector, update_of_ne hn]
    · exact fun x hx => update_of_ne hx _ _
    · intro hf
      dsimp only at hf
      rw [update_self] at hf
      cases hf

theorem Sane.intr (h : Sane s q) (hs : step s (.ok .intr) = some s') :
    ∃ b, q = b :: q.tail ∧ Sane s' q.tail := by
  rw [step] at hs
  cases hd : s.drv.drive with
  | idle => rw [hd] at hs; cases hs
  | working c => rw [hd] at hs; cases hs
  | done c port =>
    rw [hd] at hs
    obtain ⟨t, ht, rfl⟩ := Option.map_eq_some_iff.mp hs
    obtain ⟨b, r, rfl, -⟩ := h.queue.command (.inr ⟨port, hd⟩)
    rw [ideintr_eq h.queue.chain.1] at ht
    obtain ⟨t', ht', heff⟩ :=
      ideintr_effect (if s.err then (s.drv.bufs b).data else port) h.queue
    obtain rfl : t' = t := Option.some.inj (ht'.symm.trans ht)
    refine ⟨b, rfl, heff.queue h.queue, ?_, ?_, ?_⟩
    · intro x y hx hy hxy
      dsimp only at hx hy ⊢
      rw [heff.unused] at hx hy
      rw [heff.blockno, heff.blockno]
      exact h.apart x y hx hy hxy
    · intro x r' c' port' _ hdone
      rcases heff.drive with hidle | ⟨c, hworking⟩
      · rw [hidle] at hdone
        cases hdone
      · rw [hworking] at hdone
        cases hdone
    · intro p x hp hx hf
      dsimp only at hp hf ⊢
      by_cases hxb : x = b
      · obtain rfl := hxb
        obtain ⟨herr, hdata⟩ := h.done x r c port rfl hd hf
        rw [heff.blockno, heff.disk, heff.bufs, update_self, herr,
          if_neg Bool.false_ne_true]
        exact hdata
      · rw [heff.place p] at hp
        by_cases e : s.drv.place p = .asleep b
        · rw [if_pos e] at hp
          cases hp
          exact absurd rfl hxb
        · rw [if_neg e] at hp
          rw [heff.disk, heff.keep hxb]
          exact h.served p x hp (fun hq => (List.mem_cons.mp hq).elim hxb hx) hf

theorem Sane.move {l : Place} (h : Sane s q)
    (hqueue : Queue { s.drv with place := update s.drv.place p l } q)
    (hbuf : ∀ x, l.buf = some x → (s.drv.place p).buf = some x)
    (hwoken : ∀ x, l = .woken x → x ∈ q) :
    Sane { s with drv := { s.drv with place := update s.drv.place p l } } q := by
  have hused : ∀ x, ¬ Ide.State.Unused { s.drv with place := update s.drv.place p l } x →
      ¬ s.drv.Unused x := by
    intro x hx hu
    apply hx
    intro p'
    dsimp only
    by_cases e : p' = p
    · rw [e, update_self]
      exact fun hl => hu p (hbuf x hl)
    · rw [update_of_ne e]
      exact hu p'
  refine ⟨hqueue, fun x y hx hy => h.apart x y (hused x hx) (hused y hy), h.done, ?_⟩
  intro p' x hp' hx
  dsimp only at hp'
  by_cases e : p' = p
  · rw [e, update_self] at hp'
    exact absurd (hwoken x hp') hx
  · rw [update_of_ne e] at hp'
    exact h.served p' x hp' hx

theorem Sane.kick (h : Sane s q) (hs : step s (.ok (.kick p)) = some s') : Sane s' q := by
  obtain ⟨t, ht, rfl⟩ := Option.map_eq_some_iff.mp hs
  obtain ⟨b, hb, hp, rfl, hqueue⟩ := h.queue.kick ht
  apply h.move hqueue
  · intro x hx
    rw [hp]
    exact hx
  · rintro x ⟨⟩
    exact hb

theorem Sane.wake (h : Sane s q) (hs : step s (.ok (.wake p)) = some s') : Sane s' q := by
  obtain ⟨t, ht, rfl⟩ := Option.map_eq_some_iff.mp hs
  obtain ⟨b, hp⟩ := woken_of_wake ht
  obtain ⟨l, hl, hqueue, hcase⟩ := h.queue.wake hp
  obtain rfl := Option.some.inj (hl.symm.trans ht)
  apply h.move hqueue
  · intro x hx
    rw [hp]
    rcases hcase with ⟨rfl, -⟩ | ⟨rfl, -⟩
    · cases hx
    · exact hx
  · rintro x rfl
    rcases hcase with ⟨hl, -⟩ | ⟨hl, -⟩ <;> cases hl

theorem Sane.step {a : Act} (h : Sane s q) (hap : Apart s a) (hs : step s a = some s') :
    ∃ q', Sane s' q' := by
  cases a with
  | fail d => exact ⟨q, h.fail hs⟩
  | ok a =>
    cases a with
    | prep b v => exact ⟨q, h.prep hs⟩
    | iderw p b => exact ⟨_, h.iderw hap hs⟩
    | drive => exact ⟨q, h.drive hs⟩
    | intr =>
      obtain ⟨b, -, h'⟩ := h.intr hs
      exact ⟨_, h'⟩
    | kick p => exact ⟨q, h.kick hs⟩
    | wake p => exact ⟨q, h.wake hs⟩

theorem sane_of_run {s₀ : State} {acts : List Act} (h₀ : s₀.drv.Init)
    (hap : Meets Errors.step Apart s₀ acts) (h : run Errors.step s₀ acts = some s) :
    ∃ q, Sane s q :=
  run_invariant (I := fun s => ∃ q, Sane s q) (fun _ _ _ ⟨_, hI⟩ hap hs => hI.step hap hs)
    ⟨[], Sane.init h₀⟩ hap h

/-- In every run, with errors of the drive anywhere, in which no two buffers of one block are in
`iderw` at once: when `iderw` returns for a buffer and the drive reported no error for the command
of this request, the buffer is valid and not dirty, and its data are those of the block on disk. -/
theorem returned_matches_disk {s₀ s t : State} {acts : List Act} {p : Fin NPROC} {b : B}
    (h₀ : s₀.drv.Init) (hap : Meets Errors.step Apart s₀ acts)
    (h : run Errors.step s₀ acts = some s) (hp : s.drv.place p = .woken b)
    (ht : Errors.step s (.ok (.wake p)) = some t) (hout : t.drv.place p = .out)
    (hok : t.failed b = false) :
    (t.drv.bufs b).Clean ∧ (t.drv.bufs b).data = t.drv.disk true (t.drv.bufs b).blockno := by
  obtain ⟨q, hI⟩ := sane_of_run h₀ hap h
  obtain ⟨d, hd, rfl⟩ := Option.map_eq_some_iff.mp ht
  obtain ⟨l, hl, -, hcase⟩ := hI.queue.wake hp
  obtain rfl := Option.some.inj (hl.symm.trans hd)
  dsimp only at hout hok ⊢
  rw [update_self] at hout
  rcases hcase with ⟨-, hq⟩ | ⟨hasleep, -⟩
  · exact ⟨hI.queue.woken p b hp hq, hI.served p b hp hq hok⟩
  · rw [hasleep] at hout
    cases hout

def quiet : State := ⟨idleState, false, fun _ => false⟩

theorem three_lt_nbuf : 3 < NBUF := by decide

/-- A process reads block 0. -/
def oneRead : List Act := [.ok (.iderw ⟨0, nproc_pos⟩ ⟨3, three_lt_nbuf⟩), .ok .drive, .ok .intr]

theorem returned_matches_disk_oneRead : ∃ s t, run Errors.step quiet oneRead = some s ∧
    Errors.step s (.ok (.wake ⟨0, nproc_pos⟩)) = some t ∧
    (t.drv.bufs ⟨3, three_lt_nbuf⟩).data = t.drv.disk true (t.drv.bufs ⟨3, three_lt_nbuf⟩).blockno := by
  have h₀ : quiet.drv.Init := ⟨rfl, rfl, fun _ => rfl, rfl, rfl⟩
  have hap : Meets Errors.step Apart quiet oneRead := by decide +kernel
  have hrun : (run Errors.step quiet oneRead).map (fun s => (s.drv.place ⟨0, nproc_pos⟩,
      (Errors.step s (.ok (.wake ⟨0, nproc_pos⟩))).map fun t =>
        (t.drv.place ⟨0, nproc_pos⟩, t.failed ⟨3, three_lt_nbuf⟩))) =
      some (.woken ⟨3, three_lt_nbuf⟩, some (.out, false)) := by
    decide +kernel
  obtain ⟨s, hs, hfields⟩ := Option.map_eq_some_iff.mp hrun
  obtain ⟨hp, hwake⟩ := Prod.mk.inj hfields
  obtain ⟨t, ht, hfields⟩ := Option.map_eq_some_iff.mp hwake
  obtain ⟨hout, hok⟩ := Prod.mk.inj hfields
  exact ⟨s, t, hs, ht, (returned_matches_disk h₀ hap hs hp ht hout hok).2⟩

/-- The first byte of block 0 on disk and of buffer 3, and whether the buffer is valid and not
dirty and process 0 is out of `iderw`. -/
def outcome (s : State) : BitVec 8 × BitVec 8 × Bool × Bool :=
  (s.drv.disk true 0 ⟨0, by decide⟩, (s.drv.bufs ⟨3, three_lt_nbuf⟩).data ⟨0, by decide⟩,
    decide (s.drv.bufs ⟨3, three_lt_nbuf⟩).Clean, decide (s.drv.place ⟨0, nproc_pos⟩ = .out))

/-- A read that ends with an error returns a valid buffer with the bytes that it had before, and a
write that ends with an error returns as if it had been made. -/
theorem error_unnoticed :
    (run Errors.step quiet [.ok (.iderw ⟨0, nproc_pos⟩ ⟨3, three_lt_nbuf⟩), .fail fun _ => 0, .ok .intr,
      .ok (.wake ⟨0, nproc_pos⟩)]).map outcome = some (7, 0, true, true) ∧
    (run Errors.step quiet [.ok (.prep ⟨3, three_lt_nbuf⟩ ⟨1, 0, true, true, fun _ => 5⟩),
      .ok (.iderw ⟨0, nproc_pos⟩ ⟨3, three_lt_nbuf⟩), .fail fun _ => 7, .ok .intr,
      .ok (.wake ⟨0, nproc_pos⟩)]).map outcome = some (7, 5, true, true) := by
  decide +kernel

end DuckoUnix.Ide.Errors
