import DuckoUnix.Log.Isolation

/-!
# Log admission control

`begin_op` reserves `MAXOPBLOCKS` blocks for each operation against `LOGSIZE`, but `log_write`
panics as soon as the header has `log.size - 1` entries, and does so before it looks for the block
in the header. With `log.size = LOGSIZE`, as `mkfs` writes it, the reservation is two blocks too
generous: one for the header block, which `log.size` counts, and one because a full log is refused
even for a block already in it.

`demand` is what the log holds plus what the operations in progress may still add. It never grows
but by an admission, so the panic is out of reach as long as every admission leaves `demand` at
most `log.size - 2` (`log_admission`). Three operations of ten blocks each reach the panic
(`three_operations_panic`).
-/

namespace DuckoUnix.LogOps

open Lib Function

variable {N : ℕ}

def PState.logged : PState → List ℕ
  | .op _ logged | .checked _ logged _ => logged
  | _ => []

/-- The blocks an operation has passed to `log_write`. -/
def PState.blocks : PState → Finset ℕ
  | .checked _ logged b => insert b logged.toFinset
  | x => x.logged.toFinset

/-- What an operation may still add to the header. -/
def PState.owed (x : PState) : ℕ := if x.inOp then MAXOPBLOCKS - x.logged.toFinset.card else 0

/-- What the log holds and what the operations in progress may still add to it. -/
def demand (s : State N) : ℕ := s.log.block.length + ∑ p, (s.procs p).owed

/-- Each operation logs at most `MAXOPBLOCKS` distinct blocks. -/
def OpBound (s : State N) : Act N → Prop
  | .logCheck p b => (insert b (s.procs p).blocks).card ≤ MAXOPBLOCKS
  | _ => True

/-- If `begin_op` admits an operation, its blocks fit in a log of `log.size - 2`. -/
def Roomy (s : State N) : Act N → Prop
  | .beginOp _ => ¬ s.log.waits → demand s + MAXOPBLOCKS + 2 ≤ s.log.size
  | _ => True

instance (s : State N) : DecidablePred (OpBound s) := fun a => by
  cases a <;> unfold OpBound <;> infer_instance

instance (s : State N) : DecidablePred (Roomy s) := fun a => by
  cases a <;> unfold Roomy <;> infer_instance

/-! ## Demand -/

/-- The invariant: demand stays below the size of the log, operations within their bound, and
what an operation in progress has logged is in the header. -/
structure Fits (s : State N) : Prop where
  size : s.log.size = nlog
  demand : demand s + 2 ≤ s.log.size
  bound : ∀ p, (s.procs p).blocks.card ≤ MAXOPBLOCKS
  logged : ∀ p, ∀ b ∈ (s.procs p).logged, b ∈ s.log.block
  noPanic : s.panic ≠ some .tooBig

theorem length_absorb_le (block : List ℕ) (b : ℕ) : (absorb block b).length ≤ block.length + 1 := by
  unfold absorb
  split_ifs
  · omega
  · simp

theorem logged_of_not_inOp {x : PState} (h : x.inOp = false) : x.logged = [] := by
  cases x <;> first | rfl | cases h

theorem blocks_of_not_inOp {x : PState} (h : x.inOp = false) : x.blocks = ∅ := by
  cases x <;> first | rfl | cases h

theorem sum_owed_wakeup (procs : Fin N → PState) :
    ∑ q, (wakeup procs q).owed = ∑ q, (procs q).owed :=
  Finset.sum_congr rfl fun q _ => apply_wakeup (f := PState.owed) rfl procs q

theorem sum_owed_update (procs : Fin N → PState) (p : Fin N) (x : PState) :
    ∑ q, (update procs p x q).owed + (procs p).owed = ∑ q, (procs q).owed + x.owed :=
  sum_update_add PState.owed procs p x

theorem Fits.move {s : State N} (h : Fits s) (s' : State N)
    (hblock : s'.log.block = s.log.block) (hsize : s'.log.size = s.log.size)
    (hpanic : s'.panic = s.panic) (hsum : ∑ q, (s'.procs q).owed ≤ ∑ q, (s.procs q).owed)
    (hbound : ∀ q, (s'.procs q).blocks.card ≤ MAXOPBLOCKS)
    (hlogged : ∀ q, ∀ b ∈ (s'.procs q).logged, b ∈ s.log.block) : Fits s' where
  size := hsize.trans h.size
  demand := by
    have := h.demand
    unfold LogOps.demand at *
    rw [hblock, hsize]
    omega
  bound := hbound
  logged := by rw [hblock]; exact hlogged
  noPanic := by rw [hpanic]; exact h.noPanic

theorem Fits.move_out {s : State N} (h : Fits s) {p : Fin N} {x : PState} (s' : State N)
    (hprocs : s'.procs = update s.procs p x) (hblock : s'.log.block = s.log.block)
    (hsize : s'.log.size = s.log.size) (hpanic : s'.panic = s.panic) (hx : x.inOp = false) :
    Fits s' := by
  have hsum := sum_owed_update s.procs p x
  have hxo : x.owed = 0 := by unfold PState.owed; rw [hx]; rfl
  refine h.move s' hblock hsize hpanic ?_ ?_ ?_ <;> rw [hprocs]
  · omega
  · exact forall_update (P := fun y => y.blocks.card ≤ MAXOPBLOCKS)
      (by rw [blocks_of_not_inOp hx]; exact Nat.zero_le _) h.bound
  · exact forall_update (P := fun y => ∀ b ∈ y.logged, b ∈ s.log.block)
      (by rw [logged_of_not_inOp hx]; exact nofun) h.logged

theorem Fits.wake {s : State N} (h : Fits s) : Fits { s with procs := wakeup s.procs } :=
  h.move _ rfl rfl rfl (sum_owed_wakeup s.procs).le
    (fun q => by
      show (wakeup s.procs q).blocks.card ≤ MAXOPBLOCKS
      rw [apply_wakeup (f := PState.blocks) rfl]
      exact h.bound q)
    (fun q => by
      show ∀ b ∈ (wakeup s.procs q).logged, b ∈ s.log.block
      rw [apply_wakeup (f := PState.logged) rfl]
      exact h.logged q)

theorem fits_enter {s : State N} (h : Fits s) {p : Fin N}
    (hroom : demand s + MAXOPBLOCKS + 2 ≤ s.log.size) : Fits { s with
      log := { s.log with outstanding := s.log.outstanding + 1 }
      procs := update s.procs p (.op s.nextOp [])
      nextOp := s.nextOp + 1 } where
  size := h.size
  demand := by
    have hsum := sum_owed_update s.procs p (.op s.nextOp [])
    have hnew : (PState.op s.nextOp []).owed = MAXOPBLOCKS := rfl
    show s.log.block.length + ∑ q, (update s.procs p (.op s.nextOp []) q).owed + 2 ≤
      s.log.size
    unfold demand at hroom
    omega
  bound := forall_update (P := fun y => y.blocks.card ≤ MAXOPBLOCKS) (Nat.zero_le _) h.bound
  logged := forall_update (P := fun y => ∀ b ∈ y.logged, b ∈ s.log.block) nofun h.logged
  noPanic := h.noPanic

theorem fits_check {s : State N} (h : Fits s) {p : Fin N} {o b : ℕ} {logged : List ℕ}
    (hp : s.procs p = .op o logged) (hb : (insert b (s.procs p).blocks).card ≤ MAXOPBLOCKS) :
    Fits { s with procs := update s.procs p (.checked o logged b) } := by
  have hsum : ∑ q, (update s.procs p (.checked o logged b) q).owed =
      ∑ q, (s.procs q).owed := sum_update_eq (by rw [hp]; rfl)
  have hlogged := h.logged p
  rw [hp] at hb hlogged
  exact h.move _ rfl rfl rfl hsum.le
    (forall_update (P := fun y => y.blocks.card ≤ MAXOPBLOCKS) hb h.bound)
    (forall_update (P := fun y => ∀ b ∈ y.logged, b ∈ s.log.block) hlogged h.logged)

/-- A `log_write` moves a block from what is owed to the header, or finds it there. -/
theorem fits_write {s : State N} (h : Fits s) {p : Fin N} {o b : ℕ} {logged : List ℕ}
    (hp : s.procs p = .checked o logged b) : Fits { s with
      log := { s.log with block := absorb s.log.block b }
      procs := update s.procs p (.op o (logged ++ [b]))
      events := s.events ++ [.logged o b] } := by
  have hset : (logged ++ [b]).toFinset = insert b logged.toFinset := by
    ext c
    simp
  have hbound : (insert b logged.toFinset).card ≤ MAXOPBLOCKS := by
    have := h.bound p
    rwa [hp] at this
  have hlogged : ∀ c ∈ logged, c ∈ s.log.block := by
    have := h.logged p
    rwa [hp] at this
  refine ⟨h.size, ?_, ?_, ?_, h.noPanic⟩
  · have hsum := sum_owed_update s.procs p (.op o (logged ++ [b]))
    have hold : (s.procs p).owed = MAXOPBLOCKS - logged.toFinset.card := by rw [hp]; rfl
    have hnew : (PState.op o (logged ++ [b])).owed =
        MAXOPBLOCKS - (insert b logged.toFinset).card := by rw [← hset]; rfl
    have := h.demand
    show (absorb s.log.block b).length +
      ∑ q, (update s.procs p (.op o (logged ++ [b])) q).owed + 2 ≤ s.log.size
    unfold LogOps.demand at this
    by_cases hb : b ∈ logged
    · -- absorbed: the operation has logged the block before
      rw [Finset.insert_eq_self.mpr (List.mem_toFinset.mpr hb)] at hnew
      unfold absorb
      rw [if_pos (hlogged b hb)]
      omega
    · have hcard := Finset.card_insert_of_notMem (fun h' => hb (List.mem_toFinset.mp h') :
        b ∉ logged.toFinset)
      have := length_absorb_le s.log.block b
      omega
  · refine forall_update (P := fun y => y.blocks.card ≤ MAXOPBLOCKS) ?_ h.bound
    show (logged ++ [b]).toFinset.card ≤ MAXOPBLOCKS
    rw [hset]
    exact hbound
  · refine forall_update (P := fun y => ∀ c ∈ y.logged, c ∈ absorb s.log.block b) ?_ fun q c hc =>
      mem_absorb.mpr (Or.inl (h.logged q c hc))
    intro c hc
    exact mem_absorb.mpr ((List.mem_append.mp hc).imp (hlogged c) List.mem_singleton.mp)

theorem fits_clear {s : State N} (hI : Inv s) (h : Fits s) {p : Fin N} {tail : ℕ}
    (hp : s.procs p = .install tail) : Fits { s with
      log := { s.log with block := [] }
      procs := update s.procs p .clearHead } := by
  have hno : ∀ q, (s.procs q).inOp = false :=
    inOp_of_opCount (hI.quiet (hI.committing.mpr ⟨p, by rw [hp]; rfl⟩))
  refine ⟨h.size, ?_, ?_, ?_, h.noPanic⟩
  · have hsum := sum_owed_update s.procs p .clearHead
    have hnew : PState.clearHead.owed = 0 := rfl
    have := h.demand
    show 0 + ∑ q, (update s.procs p .clearHead q).owed + 2 ≤ s.log.size
    unfold LogOps.demand at this
    omega
  · exact forall_update (P := fun y => y.blocks.card ≤ MAXOPBLOCKS) (Nat.zero_le _) h.bound
  · exact forall_update (P := fun y => ∀ b ∈ y.logged, b ∈ []) nofun fun q b hb => by
      rw [logged_of_not_inOp (hno q)] at hb
      exact hb

/-- With room to spare, a full log is never met. -/
theorem Fits.not_tooBig {s : State N} (h : Fits s) :
    ¬ (LOGSIZE ≤ s.log.block.length ∨ s.log.size ≤ s.log.block.length + 1) := by
  have h1 := h.demand
  have h2 := h.size
  unfold LogOps.demand at h1
  unfold nlog at h2
  omega

theorem step_fits {s s' : State N} {a : Act N} (hs : Step s a s') (hI : Inv s) (hb : OpBound s a)
    (hr : Roomy s a) (h : Fits s) : Fits s' := by
  cases hs with
  | wait hp hw => exact h.move_out _ rfl rfl rfl rfl rfl
  | enter hp hw => exact fits_enter h (hr hw)
  | tooBig hp hfull => exact absurd hfull h.not_tooBig
  | outside hp ho => exact ⟨h.size, h.demand, h.bound, h.logged, by simp⟩
  | check hp hfull => exact fits_check h hp hb
  | outOfBounds hp => exact ⟨h.size, h.demand, h.bound, h.logged, by simp⟩
  | write hp => exact fits_write h hp
  | nested hp hc => exact ⟨h.size, h.demand, h.bound, h.logged, by simp⟩
  | last hp hc ho => exact h.move_out _ rfl rfl rfl rfl (by split_ifs <;> rfl)
  | leave hp hc ho => exact h.wake.move_out _ rfl rfl rfl rfl rfl
  | writeLog hp ht => exact h.move_out _ rfl rfl rfl rfl rfl
  | head hp ht => exact h.move_out _ rfl rfl rfl rfl rfl
  | install hp ht => exact h.move_out _ rfl rfl rfl rfl rfl
  | clear hp ht => exact fits_clear hI h hp
  | clearHead hp => exact h.move_out _ rfl rfl rfl rfl rfl
  | done hp => exact h.wake.move_out _ rfl rfl rfl rfl rfl
  | kill hp => exact h.move_out _ rfl rfl rfl rfl rfl

theorem init_fits (start : ℕ) : Fits (init N start) where
  size := rfl
  demand := by
    have : ∑ q, ((init N start).procs q).owed = 0 := Finset.sum_eq_zero fun _ _ => rfl
    unfold LogOps.demand
    rw [this]
    show 0 + 0 + 2 ≤ nlog
    decide
  bound := fun _ => Nat.zero_le _
  logged := nofun
  noPanic := nofun

/-- **Log admission.** In a run of any number of operations that log at most `MAXOPBLOCKS` blocks
each, and whose admissions leave the log two blocks to spare, no `log_write` panics. -/
theorem log_admission (start : ℕ) (as : List (Act N)) (s : State N)
    (hops : Meets step OpBound (init N start) as) (hroom : Meets step Roomy (init N start) as)
    (h : run step (init N start) as = some s) : s.panic ≠ some .tooBig := by
  have hI : Inv s ∧ Fits s := by
    refine run_invariant (I := fun s => Inv s ∧ Fits s) ?_ ⟨init_inv start, init_fits start⟩
      (hops.and hroom) h
    rintro s a s' ⟨hI, hF⟩ ⟨hb, hr⟩ hs
    have hs := (step_of_step hs).2
    exact ⟨step_inv hs hI, step_fits hs hI hb hr hF⟩
  exact hI.2.noPanic

/-- Two operations side by side, each logging one block. -/
theorem log_admission_two :
    ∃ s, run step (init 2 2) [.beginOp 0, .beginOp 1, .logCheck 0 40, .logWrite 0, .logCheck 1 41,
        .logWrite 1, .endOp 0, .endOp 1] = some s ∧ s.log.block = [40, 41] ∧
      s.panic ≠ some .tooBig := by
  obtain ⟨s, hs, hb⟩ : ∃ s, run step (init 2 2) [.beginOp 0, .beginOp 1, .logCheck 0 40,
      .logWrite 0, .logCheck 1 41, .logWrite 1, .endOp 0, .endOp 1] = some s ∧
      s.log.block = [40, 41] := ⟨_, rfl, rfl⟩
  exact ⟨s, hs, hb, log_admission 2 _ s (by decide +kernel) (by decide +kernel) hs⟩

/-! ## The panic is reached -/

/-- Process `p` logs `n` blocks from `b` on. -/
def logs (p : Fin N) (b n : ℕ) : List (Act N) :=
  (List.range n).flatMap fun i => [.logCheck p (b + i), .logWrite p]

/-- Two operations log ten blocks each, a third logs nine and comes to its tenth. -/
def threeOperations : List (Act 3) :=
  [.beginOp 0, .beginOp 1, .beginOp 2] ++ logs 0 100 10 ++ logs 1 110 10 ++ logs 2 120 9 ++
    [.logCheck 2 129]

/-- Three operations, each within `MAXOPBLOCKS`, are admitted together, and the last of their
thirty blocks is one too many. -/
theorem three_operations_panic :
    Meets step OpBound (init 3 2) threeOperations ∧
      (run step (init 3 2) threeOperations).map State.panic = some (some .tooBig) := by
  decide +kernel

end DuckoUnix.LogOps
