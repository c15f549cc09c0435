import Mathlib.Data.Fintype.Card
import Mathlib.Data.List.Nodup
import DuckoUnix.Ide.Driver

/-!
# The request queue of the IDE driver

What every section of the driver does to `idequeue`, whatever the drive has done with the data.
`Queue s q` says that `idequeue` is the chain of the buffers `q`, that the drive works on the first
of them, and where the processes in `iderw` are. `Enqueued` and `Served` list what a call of `iderw`
and an interrupt change.
-/

namespace DuckoUnix.Ide

open Lib Function

variable {s s' : State} {q r : List B} {b : B} {p : Fin NPROC} {e v : Buf} {c : Cmd}

/-! ## Commands -/

/-- The command for a block of disk 1 addresses this block. -/
theorem idestart_eq (hdev : e.dev = 1) (hb : e.blockno < FSSIZE) : ∃ c, idestart e = some c ∧
    c.unit = true ∧ c.sector = e.blockno ∧ c.write = if e.dirty then some e.data else none := by
  have hlt : e.blockno < 1000 := hb
  have hone : e.blockno * (BSIZE / SECTOR_SIZE) = e.blockno := Nat.mul_one _
  have hn : (BitVec.ofNat 32 e.blockno).toNat = e.blockno := by
    rw [BitVec.toNat_ofNat]
    omega
  have hhigh : BitVec.ofNat 32 e.blockno >>> 24 = 0#32 := by
    refine BitVec.eq_of_toNat_eq ?_
    rw [BitVec.toNat_ushiftRight, hn, Nat.shiftRight_eq_div_pow]
    show e.blockno / 2 ^ 24 = 0
    omega
  have hselect : 0xe0#8 ||| ((BitVec.ofNat 8 1 &&& 1#8) <<< 4) |||
      ((0#32).setWidth 8 &&& 0x0f#8) = 0xf0#8 := by decide
  have hzero : (0xf0#8 &&& 0x0f#8).toNat = 0 := by decide
  unfold idestart
  dsimp only
  rw [if_neg (Nat.not_le.mpr hb), if_neg (by decide), hone, hdev, hhigh, hselect]
  refine ⟨_, rfl, show (0xf0#8).getLsbD 4 = true by decide, ?_, rfl⟩
  show (BitVec.setWidth 8 (BitVec.ofNat 32 e.blockno)).toNat +
    2 ^ 8 * (BitVec.setWidth 8 (BitVec.ofNat 32 e.blockno >>> 8)).toNat +
    2 ^ 16 * (BitVec.setWidth 8 (BitVec.ofNat 32 e.blockno >>> 16)).toNat +
    2 ^ 24 * (0xf0#8 &&& 0x0f#8).toNat = e.blockno
  rw [hzero, BitVec.toNat_setWidth, BitVec.toNat_setWidth, BitVec.toNat_setWidth,
    BitVec.toNat_ushiftRight, BitVec.toNat_ushiftRight, hn, Nat.shiftRight_eq_div_pow,
    Nat.shiftRight_eq_div_pow]
  omega

def Drive.Has (d : Drive) (c : Cmd) : Prop := d = .working c ∨ ∃ port, d = .done c port

theorem Drive.Has.unique {d : Drive} {c' : Cmd} (h : d.Has c) (h' : d.Has c') : c = c' := by
  rcases h with rfl | ⟨port, rfl⟩
  · rcases h' with h' | ⟨port', h'⟩
    · cases h'; rfl
    · cases h'
  · rcases h' with h' | ⟨port', h'⟩
    · cases h'
    · cases h'; rfl

theorem Drive.Has.not_idle {d : Drive} (h : d.Has c) : d ≠ .idle := by
  rcases h with rfl | ⟨port, rfl⟩ <;> simp

/-! ## The queue -/

/-- The buffers of `idequeue` are `q`, in this order. -/
structure Queue (s : State) (q : List B) : Prop where
  chain : Chain s.qnext s.idequeue q
  nodup : q.Nodup
  /-- a queued buffer is that of a process in `iderw` -/
  held : ∀ b ∈ q, ¬ s.Unused b
  ready : ∀ b ∈ q, ¬ (s.bufs b).Clean ∧ (s.bufs b).dev = 1 ∧ (s.bufs b).blockno < FSSIZE
  /-- only processes with a queued buffer sleep -/
  asleep : ∀ p b, s.place p = .asleep b → b ∈ q
  /-- a process whose request was served can leave -/
  woken : ∀ p b, s.place p = .woken b → b ∉ q → (s.bufs b).Clean
  idle : q = [] → s.drive = .idle
  head : ∀ b r, q = b :: r → ∃ c, idestart (s.bufs b) = some c ∧ s.drive.Has c

theorem Queue.not_mem (h : Queue s q) (hb : s.Unused b) : b ∉ q := fun hq => h.held b hq hb

theorem Queue.length_le (h : Queue s q) : q.length ≤ NBUF := by
  have := h.nodup.length_le_card
  rwa [Fintype.card_fin] at this

theorem Queue.init (h : s.Init) : Queue s [] where
  chain := h.queue
  nodup := List.nodup_nil
  held := fun b hb => nomatch hb
  ready := fun b hb => nomatch hb
  asleep := fun p b hp => by rw [h.place p] at hp; cases hp
  woken := fun p b hp => by rw [h.place p] at hp; cases hp
  idle := fun _ => h.drive
  head := fun b r hq => nomatch hq

theorem Queue.command (h : Queue s q) (hd : s.drive.Has c) : ∃ b r, q = b :: r ∧
    idestart (s.bufs b) = some c ∧ c.unit = true ∧ c.sector = (s.bufs b).blockno ∧
    c.write = if (s.bufs b).dirty then some (s.bufs b).data else none := by
  cases q with
  | nil => exact absurd (h.idle rfl) hd.not_idle
  | cons b r =>
    obtain ⟨c', hstart, hhas⟩ := h.head b r rfl
    obtain rfl := hd.unique hhas
    obtain ⟨-, hdev, hblk⟩ := h.ready b List.mem_cons_self
    obtain ⟨c', hstart', hunit, hsector, hwrite⟩ := idestart_eq hdev hblk
    obtain rfl : c = c' := Option.some.inj (hstart.symm.trans hstart')
    exact ⟨b, r, rfl, hstart, hunit, hsector, hwrite⟩

/-! ## The holders and the drive -/

theorem Queue.prep {hist : List MAct} (h : Queue s q) (hb : s.Unused b) :
    Queue { s with bufs := update s.bufs b v, hist := hist } q := by
  have hq := h.not_mem hb
  have hkeep : ∀ c, c ≠ b → update s.bufs b v c = s.bufs c := fun c hc =>
    update_of_ne hc _ _
  refine { h with ready := ?_, woken := ?_, head := ?_ }
  · intro c hc
    have := h.ready c hc
    rwa [← hkeep c fun e => hq (e ▸ hc)] at this
  · intro p c hp hc
    have hne : c ≠ b := fun e => hb p (by rw [show s.place p = _ from hp, e]; rfl)
    have := h.woken p c hp hc
    rwa [← hkeep c hne] at this
  · intro c r hr
    have hne : c ≠ b := fun e => hq (by rw [hr, e]; exact List.mem_cons_self)
    have := h.head c r hr
    rwa [← hkeep c hne] at this

theorem Queue.finished {port : Block} {disk : Bool → ℕ → Block} (h : Queue s q)
    (hd : s.drive = .working c) : Queue { s with drive := .done c port, disk := disk } q := by
  refine { h with idle := ?_, head := ?_ }
  · intro hq
    have := h.idle hq
    rw [hd] at this
    cases this
  · intro b r hq
    obtain ⟨c', hstart, hhas⟩ := h.head b r hq
    obtain rfl : c = c' := Drive.Has.unique (.inl hd) hhas
    exact ⟨c, hstart, .inr ⟨port, rfl⟩⟩

/-! ## A request -/

theorem enqueue_chain (h : Queue s q) (hq : b ∉ q) :
    Chain (enqueue s b).qnext (enqueue s b).idequeue (q ++ [b]) := by
  have hkeep : ∀ c ∈ q, update s.qnext b none c = s.qnext c := fun c hc =>
    update_of_ne (fun e : c = b => hq (e ▸ hc)) _ _
  have hchain := h.chain.congr hkeep
  have hself : update s.qnext b none b = none := update_self _ _ _
  unfold enqueue
  cases hi : s.idequeue with
  | none =>
    rw [hi] at hchain
    obtain rfl : q = [] := hchain.unique rfl
    exact ⟨rfl, hself⟩
  | some x =>
    rw [hi] at hchain
    exact hchain.append h.nodup h.length_le hself hq

theorem enqueue_idequeue : (enqueue s b).idequeue = some (s.idequeue.getD b) := by
  unfold enqueue
  cases s.idequeue <;> rfl

theorem enqueue_frame : (enqueue s b).bufs = s.bufs ∧ (enqueue s b).drive = s.drive ∧
    (enqueue s b).disk = s.disk ∧ (enqueue s b).hist = s.hist := by
  unfold enqueue
  cases s.idequeue <;> exact ⟨rfl, rfl, rfl, rfl⟩

/-- A call of `iderw` by `p` appends the buffer and starts an idle drive on it. -/
structure Enqueued (s s' : State) (q : List B) (p : Fin NPROC) (b : B) : Prop where
  chain : Chain s'.qnext s'.idequeue (q ++ [b])
  bufs : s'.bufs = s.bufs
  disk : s'.disk = s.disk
  hist : s'.hist = s.hist
  place : s'.place = update s.place p (.asleep b)
  requests : s'.requests = s.requests ++ [b]
  busy : q ≠ [] → s'.drive = s.drive
  idle : q = [] → ∃ c, idestart (s.bufs b) = some c ∧ s'.drive = .working c

theorem iderw_effect (h : Queue s q) (hun : s.Unused b) (hdev : (s.bufs b).dev = 1)
    (hblk : (s.bufs b).blockno < FSSIZE) (hc : ¬ (s.bufs b).Clean) :
    ∃ s', iderw s p b = some s' ∧ Enqueued s s' q p b := by
  have hq := h.not_mem hun
  have hchain := enqueue_chain h hq
  obtain ⟨hbufs, hdrive, hdisk, hhist⟩ := enqueue_frame (s := s) (b := b)
  obtain ⟨c, hstart, -⟩ := idestart_eq hdev hblk
  unfold iderw
  rw [if_neg hc]
  dsimp only
  cases hi : s.idequeue with
  | none =>
    have hfirst : (enqueue s b).idequeue = some b := by rw [enqueue_idequeue, hi]; rfl
    have hnil : q = [] := by
      have := h.chain
      rw [hi] at this
      exact this.unique rfl
    rw [if_pos hfirst, hstart]
    exact ⟨_, rfl, hchain, hbufs, hdisk, hhist, rfl, rfl,
      fun hne => absurd hnil hne, fun _ => ⟨c, hstart, rfl⟩⟩
  | some x =>
    have hx : x ∈ q := by
      have := h.chain
      rw [hi] at this
      cases q with
      | nil => exact nomatch this
      | cons y r =>
        obtain rfl := Option.some.inj this.1
        exact List.mem_cons_self
    have hne : ¬ (enqueue s b).idequeue = some b := by
      rw [enqueue_idequeue, hi]
      exact fun e => hq (Option.some.inj e ▸ hx)
    rw [if_neg hne]
    refine ⟨_, rfl, hchain, hbufs, hdisk, hhist, rfl, rfl, fun _ => hdrive, fun hnil => ?_⟩
    rw [hnil] at hx
    exact nomatch hx

theorem iderw_guard (hs : step s (.iderw p b) = some s') : s.place p = .out ∧ s.Unused b ∧
    (s.bufs b).dev = 1 ∧ (s.bufs b).blockno < FSSIZE ∧ ¬ (s.bufs b).Clean ∧
    iderw s p b = some s' := by
  rw [step] at hs
  split at hs
  case isFalse => cases hs
  case isTrue hguard =>
    obtain ⟨hout, hun, hdev, hblk⟩ := hguard
    refine ⟨hout, hun, hdev, hblk, fun hc => ?_, hs⟩
    rw [Ide.iderw, if_pos hc] at hs
    cases hs

theorem Queue.iderw (h : Queue s q) (hs : step s (.iderw p b) = some s') :
    Enqueued s s' q p b ∧ Queue s' (q ++ [b]) := by
  obtain ⟨hout, hun, hdev, hblk, hc, hiderw⟩ := iderw_guard hs
  have hq := h.not_mem hun
  obtain ⟨t, ht, heff⟩ := iderw_effect (p := p) h hun hdev hblk hc
  obtain rfl : t = s' := Option.some.inj (ht.symm.trans hiderw)
  have hold : ∀ p', p' ≠ p → t.place p' = s.place p' := fun p' hp' => by
    rw [heff.place, update_of_ne hp']
  have hnew : t.place p = .asleep b := by rw [heff.place, update_self]
  refine ⟨heff, ?_⟩
  exact {
    chain := heff.chain
    nodup := by
      rw [List.nodup_append_comm]
      exact List.nodup_cons.mpr ⟨hq, h.nodup⟩
    held := fun c hc hu => by
      rcases List.mem_append.mp hc with hc | hc
      · refine h.held c hc fun p' hp' => hu p' ?_
        rw [hold p' fun e => by rw [e, hout] at hp'; cases hp']
        exact hp'
      · obtain rfl := List.mem_singleton.mp hc
        exact hu p (by rw [hnew]; rfl)
    ready := fun c hc' => by
      rw [heff.bufs]
      rcases List.mem_append.mp hc' with hc' | hc'
      · exact h.ready c hc'
      · obtain rfl := List.mem_singleton.mp hc'
        exact ⟨hc, hdev, hblk⟩
    asleep := fun p' c hp' => by
      by_cases e : p' = p
      · rw [e, hnew] at hp'
        cases hp'
        exact List.mem_append_right _ List.mem_cons_self
      · rw [hold p' e] at hp'
        exact List.mem_append_left _ (h.asleep p' c hp')
    woken := fun p' c hp' hc' => by
      have e : p' ≠ p := fun e => by rw [e, hnew] at hp'; cases hp'
      rw [hold p' e] at hp'
      rw [heff.bufs]
      exact h.woken p' c hp' fun hcq => hc' (List.mem_append_left _ hcq)
    idle := fun hnil => nomatch (List.append_eq_nil_iff.mp hnil).2
    head := fun c r hr => by
      rw [heff.bufs]
      cases q with
      | nil =>
        obtain rfl := (List.cons.inj hr).1
        obtain ⟨cmd, hcmd, hworking⟩ := heff.idle rfl
        exact ⟨cmd, hcmd, .inl hworking⟩
      | cons x q =>
        obtain rfl := (List.cons.inj hr).1
        rw [heff.busy (List.cons_ne_nil _ _)]
        exact h.head x q rfl }

/-! ## An interrupt -/

def Buf.finish (e : Buf) (port : Block) : Buf :=
  { e with data := if e.dirty then e.data else port, valid := true, dirty := false }

/-- An interrupt serves the head `b` of the queue and starts the drive on the next buffer. -/
structure Served (s s' : State) (b : B) (r : List B) (port : Block) : Prop where
  chain : Chain s'.qnext s'.idequeue r
  bufs : s'.bufs = update s.bufs b ((s.bufs b).finish port)
  disk : s'.disk = s.disk
  hist : s'.hist = s.hist ++ [.iderw b]
  requests : s'.requests = s.requests
  place : ∀ p, s'.place p = if s.place p = .asleep b then .woken b else s.place p
  idle : r = [] → s'.drive = .idle
  next : ∀ b' r', r = b' :: r' → ∃ c, idestart (s.bufs b') = some c ∧ s'.drive = .working c

theorem ideintr_effect (port : Block) (h : Queue s (b :: r)) :
    ∃ s', ideintr s port = some s' ∧ Served s s' b r port := by
  have hchain : Chain s.qnext (s.qnext b) r := h.chain.2
  unfold ideintr wakeup
  rw [h.chain.1]
  dsimp only
  cases r with
  | nil =>
    have hnil : s.qnext b = none := hchain
    rw [hnil]
    exact ⟨_, rfl, rfl, rfl, rfl, rfl, rfl, fun _ => rfl, fun _ => rfl, fun _ _ hr => nomatch hr⟩
  | cons b' r' =>
    have hb' : b' ∈ b :: b' :: r' := List.mem_cons_of_mem _ List.mem_cons_self
    have hne : b' ≠ b := fun e => (List.nodup_cons.mp h.nodup).1 (e ▸ List.mem_cons_self)
    obtain ⟨-, hdev, hblk⟩ := h.ready b' hb'
    obtain ⟨c, hstart, -⟩ := idestart_eq hdev hblk
    have hnext : s.qnext b = some b' := hchain.1
    rw [hnext]
    dsimp only
    rw [update_of_ne hne, hstart]
    refine ⟨_, rfl, ⟨rfl, hchain.2⟩, rfl, rfl, rfl, rfl, fun _ => rfl, (fun hr => nomatch hr), ?_⟩
    intro x l hx
    obtain rfl := (List.cons.inj hx).1
    exact ⟨c, hstart, rfl⟩

theorem Served.keep {port : Block} (h : Served s s' b r port) {x : B} (hx : x ≠ b) :
    s'.bufs x = s.bufs x := by
  rw [h.bufs, update_of_ne hx]

theorem Served.buf {port : Block} (h : Served s s' b r port) (p : Fin NPROC) :
    (s'.place p).buf = (s.place p).buf := by
  rw [h.place p]
  by_cases e : s.place p = .asleep b
  · rw [if_pos e, e]
    rfl
  · rw [if_neg e]

theorem Served.unused {port : Block} (h : Served s s' b r port) (x : B) :
    s'.Unused x ↔ s.Unused x := by
  unfold State.Unused
  simp only [h.buf]

theorem Served.drive {port : Block} (h : Served s s' b r port) :
    s'.drive = .idle ∨ ∃ c, s'.drive = .working c := by
  cases r with
  | nil => exact .inl (h.idle rfl)
  | cons x r' =>
    obtain ⟨c, -, hworking⟩ := h.next x r' rfl
    exact .inr ⟨c, hworking⟩

theorem Served.blockno {port : Block} (h : Served s s' b r port) (x : B) :
    (s'.bufs x).blockno = (s.bufs x).blockno := by
  by_cases hx : x = b
  · rw [hx, h.bufs, update_self]
    rfl
  · rw [h.keep hx]

theorem Served.queue {port : Block} (heff : Served s s' b r port) (h : Queue s (b :: r)) :
    Queue s' r := by
  obtain ⟨hbr, hnodup⟩ := List.nodup_cons.mp h.nodup
  have hkeep : ∀ x ∈ r, s'.bufs x = s.bufs x := fun x hx => heff.keep fun e => hbr (e ▸ hx)
  exact {
    chain := heff.chain
    nodup := hnodup
    held := fun x hx => by
      rw [heff.unused]
      exact h.held x (List.mem_cons_of_mem _ hx)
    ready := fun x hx => by
      rw [hkeep x hx]
      exact h.ready x (List.mem_cons_of_mem _ hx)
    asleep := fun p x hp => by
      rw [heff.place p] at hp
      by_cases e : s.place p = .asleep b
      · rw [if_pos e] at hp; cases hp
      · rw [if_neg e] at hp
        refine (List.mem_cons.mp (h.asleep p x hp)).resolve_left fun hx => e ?_
        rw [hp, hx]
    woken := fun p x hp hx => by
      by_cases hxb : x = b
      · rw [hxb, heff.bufs, update_self]
        exact ⟨rfl, rfl⟩
      · rw [heff.place p] at hp
        by_cases e : s.place p = .asleep b
        · rw [if_pos e] at hp
          cases hp
          exact absurd rfl hxb
        · rw [if_neg e] at hp
          rw [heff.keep hxb]
          exact h.woken p x hp fun hq => (List.mem_cons.mp hq).elim hxb hx
    idle := heff.idle
    head := fun x r' hr => by
      obtain ⟨c, hc, hworking⟩ := heff.next x r' hr
      rw [hkeep x (by rw [hr]; exact List.mem_cons_self)]
      exact ⟨c, hc, .inl hworking⟩ }

/-! ## Processes that sleep -/

theorem Queue.move {l : Place} (h : Queue s q) (hbuf : ∀ b ∈ q, (s.place p).buf = some b →
    l.buf = some b) (hasleep : ∀ b, l = .asleep b → b ∈ q)
    (hwoken : ∀ b, l = .woken b → b ∉ q → (s.bufs b).Clean) :
    Queue { s with place := update s.place p l } q := by
  refine { h with held := ?_, asleep := ?_, woken := ?_ }
  · intro b hb hu
    refine h.held b hb fun p' hp' => hu p' ?_
    show (update s.place p l p').buf = some b
    by_cases e : p' = p
    · rw [e, update_self]
      exact hbuf b hb (e ▸ hp')
    · rw [update_of_ne e]
      exact hp'
  · intro p' b hp'
    by_cases e : p' = p
    · rw [e] at hp'
      exact hasleep b ((update_self p l s.place).symm.trans hp')
    · exact h.asleep p' b ((update_of_ne e l s.place).symm.trans hp')
  · intro p' b hp'
    by_cases e : p' = p
    · rw [e] at hp'
      exact hwoken b ((update_self p l s.place).symm.trans hp')
    · exact h.woken p' b ((update_of_ne e l s.place).symm.trans hp')

theorem Queue.kick (h : Queue s q) (hs : step s (.kick p) = some s') : ∃ b ∈ q,
    s.place p = .asleep b ∧ s' = { s with place := update s.place p (.woken b) } ∧
    Queue s' q := by
  rw [step] at hs
  cases hp : s.place p with
  | out => rw [hp] at hs; cases hs
  | woken b => rw [hp] at hs; cases hs
  | asleep b =>
    rw [hp] at hs
    obtain rfl := Option.some.inj hs
    have hb := h.asleep p b hp
    refine ⟨b, hb, rfl, rfl, ?_⟩
    apply h.move
    · intro c _ hc
      rw [hp] at hc
      exact hc
    · exact fun c hc => nomatch hc
    · rintro c ⟨⟩ hc
      exact absurd hb hc

/-- A process returns from `iderw` iff its request has been served. -/
theorem Queue.wake (h : Queue s q) (hp : s.place p = .woken b) : ∃ l,
    step s (.wake p) = some { s with place := update s.place p l } ∧
    Queue { s with place := update s.place p l } q ∧
    (l = .out ∧ b ∉ q ∨ l = .asleep b ∧ b ∈ q) := by
  rw [step, hp]
  dsimp only
  by_cases hq : b ∈ q
  · rw [if_neg (h.ready b hq).1]
    refine ⟨_, rfl, ?_, .inr ⟨rfl, hq⟩⟩
    apply h.move
    · intro c _ hc
      rw [hp] at hc
      exact hc
    · rintro c ⟨⟩
      exact hq
    · exact fun c hc => nomatch hc
  · rw [if_pos (h.woken p b hp hq)]
    refine ⟨_, rfl, ?_, .inl ⟨rfl, hq⟩⟩
    apply h.move
    · intro c hc hbuf
      rw [hp] at hbuf
      cases hbuf
      exact absurd hc hq
    · exact fun c hc => nomatch hc
    · exact fun c hc => nomatch hc

theorem woken_of_wake (hs : step s (.wake p) = some s') : ∃ b, s.place p = .woken b := by
  rw [step] at hs
  cases hp : s.place p with
  | out => rw [hp] at hs; cases hs
  | asleep b => rw [hp] at hs; cases hs
  | woken b => exact ⟨b, rfl⟩

end DuckoUnix.Ide
