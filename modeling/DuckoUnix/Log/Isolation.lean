import DuckoUnix.Log.Ops
import DuckoUnix.Lib.Sum
import Mathlib.Algebra.Order.BigOperators.Group.Finset
import Mathlib.Tactic.Ring

/-!
# Group-commit isolation

`Inv` ties the counters of the log to the places of the processes: `outstanding` counts the
operations in progress, `committing` is set while one process is in `commit`, and then there is no
operation in progress. `History` follows the events: the `log_write`s since the last commit are
what `log.lh` holds, the header of each commit is exactly what was logged since the commit before
it, and an operation never has `log_write`s on both sides of a commit.
-/

namespace DuckoUnix.LogOps

open Lib Function

variable {N : ℕ}

/-! ## The operations in progress -/

/-- The number of processes between `begin_op` and `end_op`. -/
def opCount (procs : Fin N → PState) : ℤ := ∑ p, if (procs p).inOp then 1 else 0

theorem opCount_update_same {procs : Fin N → PState} {p : Fin N} {x : PState}
    (h : x.inOp = (procs p).inOp) : opCount (update procs p x) = opCount procs :=
  sum_update_eq (f := fun x : PState => if x.inOp then (1 : ℤ) else 0) (by rw [h])

theorem opCount_enter {procs : Fin N → PState} {p : Fin N} {x : PState}
    (hp : (procs p).inOp = false) (hx : x.inOp = true) :
    opCount (update procs p x) = opCount procs + 1 := by
  have h := sum_update_add (fun x : PState => if x.inOp then (1 : ℤ) else 0) procs p x
  simp only [hp, hx, Bool.false_eq_true, if_false, if_true, add_zero] at h
  exact h

theorem opCount_leave {procs : Fin N → PState} {p : Fin N} {x : PState}
    (hp : (procs p).inOp = true) (hx : x.inOp = false) :
    opCount (update procs p x) = opCount procs - 1 := by
  have h := sum_update_add (fun x : PState => if x.inOp then (1 : ℤ) else 0) procs p x
  simp only [hp, hx, Bool.false_eq_true, if_false, if_true, add_zero] at h
  exact eq_sub_of_add_eq h

theorem opCount_wakeup (procs : Fin N → PState) : opCount (wakeup procs) = opCount procs := by
  unfold opCount
  simp only [inOp_wakeup]

theorem opCount_nonneg (procs : Fin N → PState) : 0 ≤ opCount procs :=
  Finset.sum_nonneg fun p _ => by split_ifs <;> norm_num

theorem opCount_pos {procs : Fin N → PState} {p : Fin N} (hp : (procs p).inOp = true) :
    1 ≤ opCount procs := by
  have h := opCount_nonneg (update procs p .idle)
  rw [opCount_leave hp rfl] at h
  omega

theorem inOp_of_opCount {procs : Fin N → PState} (h : opCount procs = 0) (p : Fin N) :
    (procs p).inOp = false := by
  by_contra hp
  have := opCount_pos (Bool.not_eq_false _ ▸ hp : (procs p).inOp = true)
  omega

/-! ## Counters and flags -/

/-- The counters of the log agree with what the processes are doing. -/
structure Inv (s : State N) : Prop where
  outstanding : s.log.outstanding = opCount s.procs
  committing : s.log.committing = true ↔ ∃ p, (s.procs p).inCommit = true
  one : ∀ p q, (s.procs p).inCommit = true → (s.procs q).inCommit = true → p = q
  quiet : s.log.committing = true → opCount s.procs = 0
  noPanic : s.panic ≠ some .committing ∧ s.panic ≠ some .outsideTrans

/-- A step by which no process enters or leaves the commit. -/
theorem Inv.keep {s : State N} (h : Inv s) (s' : State N)
    (hc : ∀ q, (s'.procs q).inCommit = (s.procs q).inCommit)
    (hcom : s'.log.committing = s.log.committing) (hpanic : s'.panic = s.panic)
    (hout : s'.log.outstanding = opCount s'.procs)
    (hquiet : s.log.committing = true → opCount s'.procs = 0) : Inv s' where
  outstanding := hout
  committing := by simp only [hcom, hc]; exact h.committing
  one := by simp only [hc]; exact h.one
  quiet := by rw [hcom]; exact hquiet
  noPanic := by rw [hpanic]; exact h.noPanic

/-- A step that moves one process without entering or leaving an operation or the commit. -/
theorem Inv.move {s : State N} (h : Inv s) {p : Fin N} {x : PState} (s' : State N)
    (hprocs : s'.procs = update s.procs p x)
    (hout : s'.log.outstanding = s.log.outstanding) (hcom : s'.log.committing = s.log.committing)
    (hpanic : s'.panic = s.panic) (hop : x.inOp = (s.procs p).inOp)
    (hc : x.inCommit = (s.procs p).inCommit) : Inv s' := by
  have hcount : opCount s'.procs = opCount s.procs := by rw [hprocs, opCount_update_same hop]
  refine h.keep s' ?_ hcom hpanic ?_ ?_
  · rw [hprocs]
    exact apply_update hc
  · rw [hout, hcount, h.outstanding]
  · rw [hcount]
    exact h.quiet

/-- No process commits while one is in an operation. -/
theorem Inv.not_inCommit {s : State N} (h : Inv s) {p : Fin N} (hp : (s.procs p).inOp = true)
    (q : Fin N) : (s.procs q).inCommit = false := by
  by_contra hq
  have h0 := h.quiet (h.committing.mpr ⟨q, by simpa using hq⟩)
  have h1 := opCount_pos hp
  omega

theorem Inv.not_inCommit_of_ne {s : State N} (h : Inv s) {p q : Fin N}
    (hp : (s.procs p).inCommit = true) (e : q ≠ p) : (s.procs q).inCommit = false := by
  by_contra hq
  exact e (h.one q p (by simpa using hq) hp)

theorem Inv.not_committing {s : State N} (h : Inv s) {p : Fin N} (hp : (s.procs p).inOp = true) :
    s.log.committing = false := by
  by_contra hc
  have h0 := h.quiet (by simpa using hc)
  have h1 := opCount_pos hp
  omega

theorem step_inv {s s' : State N} {a : Act N} (hs : Step s a s') (h : Inv s) : Inv s' := by
  cases hs with
  | wait hp hw =>
    refine h.move _ rfl rfl rfl rfl ?_ ?_ <;> rcases hp with hp | hp <;> rw [hp] <;> rfl
  | @enter p hp hw =>
    have hop : (s.procs p).inOp = false := by rcases hp with hp | hp <;> rw [hp] <;> rfl
    have hcp : (s.procs p).inCommit = false := by rcases hp with hp | hp <;> rw [hp] <;> rfl
    refine h.keep _ (apply_update (by rw [hcp]; rfl)) rfl rfl ?_ fun e => absurd (Or.inl e) hw
    show s.log.outstanding + 1 = _
    rw [opCount_enter hop rfl, h.outstanding]
  | tooBig hp hb =>
    exact ⟨h.outstanding, h.committing, h.one, h.quiet, by simp⟩
  | @outside p o logged b hp ho =>
    -- the caller itself is counted in `outstanding`
    exfalso
    have hop : (s.procs p).inOp = true := by rw [hp]; rfl
    have := opCount_pos hop
    rw [h.outstanding] at ho
    omega
  | check hp hb => exact h.move _ rfl rfl rfl rfl (by rw [hp]; rfl) (by rw [hp]; rfl)
  | outOfBounds hp =>
    exact ⟨h.outstanding, h.committing, h.one, h.quiet, by simp⟩
  | write hp => exact h.move _ rfl rfl rfl rfl (by rw [hp]; rfl) (by rw [hp]; rfl)
  | nested hp hc =>
    exfalso
    have := h.not_committing (p := _) (by rw [hp]; rfl)
    rw [hc] at this
    cases this
  | @last p o logged hp hc ho =>
    have hop : (s.procs p).inOp = true := by rw [hp]; rfl
    have hnew : ∀ x : PState, x.inCommit = true → x.inOp = false := by
      intro x; cases x <;> simp [PState.inCommit, PState.inOp]
    set x : PState := if 0 < s.log.block.length then .writeLog 0 else .done with hx
    have hxc : x.inCommit = true := by rw [hx]; split_ifs <;> rfl
    have hcount : opCount (update s.procs p x) = 0 := by
      rw [opCount_leave hop (hnew x hxc), ← h.outstanding]
      exact ho
    exact {
      outstanding := ho.trans hcount.symm
      committing := iff_of_true rfl
        ⟨p, by show (update s.procs p x p).inCommit = true; rw [update_self, hxc]⟩
      one := by
        have hone : ∀ q, (update s.procs p x q).inCommit = true → q = p := by
          intro q hq
          by_contra e
          rw [update_of_ne e, h.not_inCommit hop q] at hq
          cases hq
        intro a b ha hb
        rw [hone a ha, hone b hb]
      quiet := fun _ => hcount
      noPanic := h.noPanic }
  | @leave p o logged hp hc ho =>
    have hop : (s.procs p).inOp = true := by rw [hp]; rfl
    have hcp : (PState.idle).inCommit = (wakeup s.procs p).inCommit := by
      rw [inCommit_wakeup, hp]; rfl
    refine h.keep _ (fun q => ?_) rfl rfl ?_ fun e => ?_
    · exact (apply_update hcp q).trans (inCommit_wakeup _ q)
    · show s.log.outstanding - 1 = _
      rw [opCount_leave (by rw [inOp_wakeup]; exact hop) rfl, opCount_wakeup, h.outstanding]
    · rw [hc] at e
      cases e
  | writeLog hp ht => exact h.move _ rfl rfl rfl rfl (by rw [hp]; rfl) (by rw [hp]; rfl)
  | head hp ht => exact h.move _ rfl rfl rfl rfl (by rw [hp]; rfl) (by rw [hp]; rfl)
  | install hp ht => exact h.move _ rfl rfl rfl rfl (by rw [hp]; rfl) (by rw [hp]; rfl)
  | clear hp ht => exact h.move _ rfl rfl rfl rfl (by rw [hp]; rfl) (by rw [hp]; rfl)
  | clearHead hp => exact h.move _ rfl rfl rfl rfl (by rw [hp]; rfl) (by rw [hp]; rfl)
  | @done p hp =>
    have hcp : (s.procs p).inCommit = true := by rw [hp]; rfl
    have hnone : ∀ q, (update (wakeup s.procs) p .idle q).inCommit = false := by
      intro q
      by_cases e : q = p
      · rw [e, update_self]; rfl
      · rw [update_of_ne e, inCommit_wakeup]
        exact h.not_inCommit_of_ne hcp e
    exact {
      outstanding := by
        show s.log.outstanding = _
        rw [opCount_update_same (by rw [inOp_wakeup, hp]; rfl), opCount_wakeup, h.outstanding]
      committing := iff_of_false (by simp) (by rintro ⟨q, hq⟩; rw [hnone q] at hq; cases hq)
      one := fun a _ ha _ => by rw [hnone a] at ha; cases ha
      quiet := fun e => by cases e
      noPanic := h.noPanic }
  | kill hp => exact h.move _ rfl rfl rfl rfl (by rw [hp]; rfl) (by rw [hp]; rfl)

theorem init_inv (start : ℕ) : Inv (init N start) where
  outstanding := by simp [init, opCount, PState.inOp]
  committing := by simp [init, PState.inCommit]
  one := fun p q hp => by cases hp
  quiet := fun h => by cases h
  noPanic := by simp [init]

/-! ## The history -/

/-- The `log_write`s that went into one commit, as pairs of operation and block, and its header. -/
structure Segment where
  logged : List (ℕ × ℕ)
  header : List ℕ

/-- A `log_write` extends the open segment; a commit closes it. -/
def addEvent (acc : List Segment × List (ℕ × ℕ)) : Event → List Segment × List (ℕ × ℕ)
  | .logged o b => (acc.1, acc.2 ++ [(o, b)])
  | .commit header => (acc.1 ++ [⟨acc.2, header⟩], [])

/-- The history cut at its commits: the closed segments, and the `log_write`s after the last. -/
def segments (events : List Event) : List Segment × List (ℕ × ℕ) := events.foldl addEvent ([], [])

/-- The `log_write`s that no commit has taken up yet. -/
abbrev pending (events : List Event) : List (ℕ × ℕ) := (segments events).2

@[simp] theorem segments_logged (es : List Event) (o b : ℕ) :
    segments (es ++ [.logged o b]) = ((segments es).1, pending es ++ [(o, b)]) := by
  simp [segments, addEvent, pending]

@[simp] theorem segments_commit (es : List Event) (header : List ℕ) :
    segments (es ++ [.commit header]) = ((segments es).1 ++ [⟨pending es, header⟩], []) := by
  simp [segments, addEvent, pending]

/-- The operation a process is in. -/
def PState.opId : PState → Option ℕ
  | .op o _ | .checked o _ _ => some o
  | _ => none

/-- The header of the running commit has reached the disk. -/
def PState.pastHead : PState → Bool
  | .install _ | .clearHead => true
  | _ => false

/-- `n` has been cleared, or was zero from the start. -/
def PState.atEnd : PState → Bool
  | .clearHead | .done => true
  | _ => false

theorem inOp_of_opId {x : PState} {o : ℕ} (h : x.opId = some o) : x.inOp = true := by
  cases x <;> first | rfl | cases h

theorem not_pastHead {x : PState} (h : x.inCommit = false) : x.pastHead = false := by
  cases x <;> first | rfl | cases h

theorem not_atEnd {x : PState} (h : x.inCommit = false) : x.atEnd = false := by
  cases x <;> first | rfl | cases h

/-- No operation occurs in both lists of `log_write`s. -/
def Apart (xs ys : List (ℕ × ℕ)) : Prop := ∀ x ∈ xs, ∀ y ∈ ys, x.1 ≠ y.1

/-- The log header and the headers of the commits are what the operations logged. -/
structure History (s : State N) : Prop where
  /-- a committed header is what was logged since the commit before -/
  header : ∀ c ∈ (segments s.events).1, ∀ b, b ∈ c.header ↔ ∃ o, (o, b) ∈ c.logged
  /-- `log.lh` is what was logged since the last commit, until the header is written -/
  block : (∀ p, (s.procs p).pastHead = false) →
    ∀ b, b ∈ s.log.block ↔ ∃ o, (o, b) ∈ pending s.events
  /-- then nothing is pending -/
  installed : ∀ p, (s.procs p).pastHead = true → pending s.events = []
  cleared : ∀ p, (s.procs p).atEnd = true → s.log.block = []
  /-- operations are numbered in order -/
  opId_lt : ∀ p o, (s.procs p).opId = some o → o < s.nextOp
  old : ∀ xs ∈ (segments s.events).1.map Segment.logged ++ [pending s.events],
    ∀ x ∈ xs, x.1 < s.nextOp
  /-- an operation in progress has logged nothing before the last commit -/
  fresh : ∀ p o, (s.procs p).opId = some o → ∀ c ∈ (segments s.events).1, ∀ x ∈ c.logged, x.1 ≠ o
  apart : ((segments s.events).1.map Segment.logged ++ [pending s.events]).Pairwise Apart

theorem mem_absorb {block : List ℕ} {b c : ℕ} : c ∈ absorb block b ↔ c ∈ block ∨ c = b := by
  unfold absorb
  split_ifs with h
  · exact ⟨Or.inl, fun hc => hc.elim id fun e => e ▸ h⟩
  · rw [List.mem_append, List.mem_singleton]

/-- A step that changes neither the log header nor the history. -/
theorem History.move {s : State N} (h : History s) (s' : State N)
    (hblock : s'.log.block = s.log.block) (hevents : s'.events = s.events)
    (hnext : s'.nextOp = s.nextOp)
    (hid : ∀ q o, (s'.procs q).opId = some o → (s.procs q).opId = some o)
    (hhead : ∀ q, (s'.procs q).pastHead = (s.procs q).pastHead)
    (hend : ∀ q, (s'.procs q).atEnd = true → (s.procs q).atEnd = true ∨ s.log.block = []) :
    History s' where
  header := by rw [hevents]; exact h.header
  block := fun hp => by
    rw [hevents, hblock]
    exact h.block fun p => by rw [← hhead p]; exact hp p
  installed := fun p hp => by
    rw [hevents]
    exact h.installed p (by rw [← hhead p]; exact hp)
  cleared := fun p hp => by
    rw [hblock]
    exact (hend p hp).elim (h.cleared p) id
  opId_lt := fun p o ho => by rw [hnext]; exact h.opId_lt p o (hid p o ho)
  old := by rw [hevents, hnext]; exact h.old
  fresh := fun p o ho => by rw [hevents]; exact h.fresh p o (hid p o ho)
  apart := by rw [hevents]; exact h.apart

theorem History.move_one {s : State N} (h : History s) {p : Fin N} {x : PState} (s' : State N)
    (hprocs : s'.procs = update s.procs p x) (hblock : s'.log.block = s.log.block)
    (hevents : s'.events = s.events) (hnext : s'.nextOp = s.nextOp)
    (hid : x.opId = none ∨ x.opId = (s.procs p).opId) (hhead : x.pastHead = (s.procs p).pastHead)
    (hend : x.atEnd = true → s.log.block = []) : History s' := by
  refine h.move s' hblock hevents hnext (fun q o ho => ?_) (fun q => ?_) fun q hq => ?_
  · rw [hprocs] at ho
    by_cases e : q = p
    · rw [e, update_self] at ho
      rcases hid with hid | hid <;> rw [hid] at ho
      · cases ho
      · rw [e]; exact ho
    · rwa [update_of_ne e] at ho
  · rw [hprocs]; exact apply_update hhead q
  · rw [hprocs] at hq
    by_cases e : q = p
    · rw [e, update_self] at hq
      exact Or.inr (hend hq)
    · rw [update_of_ne e] at hq
      exact Or.inl hq

theorem History.move_idle {s : State N} (h : History s) {p : Fin N} (s' : State N)
    (hprocs : s'.procs = update (wakeup s.procs) p .idle)
    (hblock : s'.log.block = s.log.block) (hevents : s'.events = s.events)
    (hnext : s'.nextOp = s.nextOp) (hp : (s.procs p).pastHead = false) : History s' := by
  have hother : ∀ q, q ≠ p → s'.procs q = wakeup s.procs q := fun q e => by
    rw [hprocs, update_of_ne e]
  have hself : s'.procs p = .idle := by rw [hprocs, update_self]
  refine h.move s' hblock hevents hnext (fun q o ho => ?_) (fun q => ?_) fun q hq => ?_
  · by_cases e : q = p
    · rw [e, hself] at ho; cases ho
    · rwa [hother q e, apply_wakeup (f := PState.opId) rfl] at ho
  · by_cases e : q = p
    · rw [e, hself, hp]; rfl
    · rw [hother q e, apply_wakeup (f := PState.pastHead) rfl]
  · by_cases e : q = p
    · rw [e, hself] at hq; cases hq
    · rw [hother q e, apply_wakeup (f := PState.atEnd) rfl] at hq
      exact Or.inl hq

/-! ### The steps that change the header or the history -/

theorem history_enter {s : State N} (h : History s) {p : Fin N}
    (hp : s.procs p = .idle ∨ s.procs p = .begin false) : History { s with
      log := { s.log with outstanding := s.log.outstanding + 1 }
      procs := update s.procs p (.op s.nextOp [])
      nextOp := s.nextOp + 1 } := by
  have hid : ∀ q o, (update s.procs p (.op s.nextOp []) q).opId = some o →
      o = s.nextOp ∨ (s.procs q).opId = some o := by
    intro q o ho
    by_cases e : q = p
    · rw [e, update_self] at ho
      exact Or.inl (Option.some.inj ho).symm
    · rw [update_of_ne e] at ho
      exact Or.inr ho
  have hhead : ∀ q, (update s.procs p (.op s.nextOp []) q).pastHead =
      (s.procs q).pastHead :=
    apply_update (by rcases hp with hp | hp <;> rw [hp] <;> rfl)
  have hend : ∀ q, (update s.procs p (.op s.nextOp []) q).atEnd = (s.procs q).atEnd :=
    apply_update (by rcases hp with hp | hp <;> rw [hp] <;> rfl)
  exact {
    header := h.header
    block := fun hq => h.block fun q => by rw [← hhead q]; exact hq q
    installed := fun q hq => h.installed q (by rw [← hhead q]; exact hq)
    cleared := fun q hq => h.cleared q (by rw [← hend q]; exact hq)
    opId_lt := fun q o ho => by
      show o < s.nextOp + 1
      rcases hid q o ho with e | ho
      · omega
      · have := h.opId_lt q o ho
        omega
    old := fun xs hxs x hx => Nat.lt_succ_of_lt (h.old xs hxs x hx)
    fresh := fun q o ho c hc x hx => by
      rcases hid q o ho with e | ho
      · have := h.old c.logged (List.mem_append_left _ (List.mem_map_of_mem hc)) x hx
        omega
      · exact h.fresh q o ho c hc x hx
    apart := h.apart }

theorem history_write {s : State N} (hI : Inv s) (h : History s) {p : Fin N} {o b : ℕ}
    {logged : List ℕ} (hp : s.procs p = .checked o logged b) : History { s with
      log := { s.log with block := absorb s.log.block b }
      procs := update s.procs p (.op o (logged ++ [b]))
      events := s.events ++ [.logged o b] } := by
  have hop : (s.procs p).inOp = true := by rw [hp]; rfl
  have hid : ∀ q, (update s.procs p (.op o (logged ++ [b])) q).opId =
      (s.procs q).opId := apply_update (by rw [hp]; rfl)
  -- nobody is in `commit`, so the header is the open segment
  have hcommit : ∀ q, (update s.procs p (.op o (logged ++ [b])) q).inCommit = false :=
    fun q => (apply_update (f := PState.inCommit) (by rw [hp]; rfl) q).trans (hI.not_inCommit hop q)
  have hnohead : ∀ q, (s.procs q).pastHead = false := fun q => not_pastHead (hI.not_inCommit hop q)
  have ho : o < s.nextOp := h.opId_lt p o (by rw [hp]; rfl)
  exact {
    header := by simpa using h.header
    block := fun _ c => by
      show c ∈ absorb s.log.block b ↔ _
      rw [mem_absorb, h.block hnohead c]
      simp only [pending, segments_logged, List.mem_append, List.mem_singleton, Prod.mk.injEq]
      constructor
      · rintro (⟨o', ho'⟩ | rfl)
        · exact ⟨o', Or.inl ho'⟩
        · exact ⟨o, Or.inr ⟨rfl, rfl⟩⟩
      · rintro ⟨o', ho' | ⟨-, rfl⟩⟩
        · exact Or.inl ⟨o', ho'⟩
        · exact Or.inr rfl
    installed := fun q hq =>
      absurd ((not_pastHead (hcommit q)).symm.trans hq) Bool.false_ne_true
    cleared := fun q hq =>
      absurd ((not_atEnd (hcommit q)).symm.trans hq) Bool.false_ne_true
    opId_lt := fun q o' ho' => h.opId_lt q o' ((hid q).symm.trans ho')
    old := by
      simp only [pending, segments_logged]
      intro xs hxs x hx
      rcases List.mem_append.mp hxs with hxs | hxs
      · exact h.old xs (List.mem_append_left _ hxs) x hx
      · rw [List.mem_singleton.mp hxs] at hx
        rcases List.mem_append.mp hx with hx | hx
        · exact h.old _ (List.mem_append_right _ (List.mem_singleton_self _)) x hx
        · rw [List.mem_singleton.mp hx]; exact ho
    fresh := fun q o' ho' => by
      simpa using h.fresh q o' ((hid q).symm.trans ho')
    apart := by
      simp only [pending, segments_logged]
      obtain ⟨h1, -, h3⟩ := List.pairwise_append.mp h.apart
      refine List.pairwise_append.mpr ⟨h1, List.pairwise_singleton _ _, ?_⟩
      intro xs hxs ys hys x hx y hy
      rw [List.mem_singleton.mp hys] at hy
      rcases List.mem_append.mp hy with hy | hy
      · exact h3 xs hxs _ (List.mem_singleton_self _) x hx y hy
      · obtain ⟨c, hc, rfl⟩ := List.mem_map.mp hxs
        rw [List.mem_singleton.mp hy]
        exact h.fresh p o (by rw [hp]; rfl) c hc x hx }

theorem history_head {s : State N} (hI : Inv s) (h : History s) {p : Fin N} {tail : ℕ}
    (hp : s.procs p = .writeLog tail) : History { s with
      procs := update s.procs p (.install 0)
      events := s.events ++ [.commit s.log.block] } := by
  have hcp : (s.procs p).inCommit = true := by rw [hp]; rfl
  -- the committing process is the only one in `commit`, and there is no operation
  have hother : ∀ q, q ≠ p → (s.procs q).inCommit = false := fun _ => hI.not_inCommit_of_ne hcp
  have hnoop : ∀ q o, (update s.procs p (.install 0) q).opId ≠ some o := by
    intro q o hq
    have h1 := inOp_of_opId hq
    rw [apply_update (f := PState.inOp) (by rw [hp]; rfl),
      inOp_of_opCount (hI.quiet (hI.committing.mpr ⟨p, hcp⟩)) q] at h1
    cases h1
  have hnohead : ∀ q, (s.procs q).pastHead = false := by
    intro q
    by_cases e : q = p
    · rw [e, hp]; rfl
    · exact not_pastHead (hother q e)
  exact {
    header := by
      simp only [segments_commit, List.mem_append, List.mem_singleton]
      rintro c (hc | rfl) b
      · exact h.header c hc b
      · exact h.block hnohead b
    block := fun hq => by
      have hp' : (update s.procs p (.install 0) p).pastHead = false := hq p
      rw [update_self] at hp'
      cases hp'
    installed := fun q _ => by simp [pending]
    cleared := fun q hq => by
      refine h.cleared q ?_
      by_cases e : q = p
      · have hq : (update s.procs p (.install 0) q).atEnd = true := hq
        rw [e, update_self] at hq
        cases hq
      · rw [← update_of_ne e (.install 0) s.procs]; exact hq
    opId_lt := fun q o ho => absurd ho (hnoop q o)
    old := by
      simp only [pending, segments_commit, List.map_append, List.map_cons, List.map_nil]
      intro xs hxs x hx
      rcases List.mem_append.mp hxs with hxs | hxs
      · exact h.old xs hxs x hx
      · rw [List.mem_singleton.mp hxs] at hx
        cases hx
    fresh := fun q o ho => absurd ho (hnoop q o)
    apart := by
      simp only [pending, segments_commit, List.map_append, List.map_cons, List.map_nil]
      refine List.pairwise_append.mpr ⟨h.apart, List.pairwise_singleton _ _, ?_⟩
      intro xs _ ys hys x _ y hy
      rw [List.mem_singleton.mp hys] at hy
      cases hy }

theorem history_drained {s : State N} (h : History s) {p : Fin N} {x : PState} (s' : State N)
    (hprocs : s'.procs = update s.procs p x) (hblock : s'.log.block = [])
    (hevents : s'.events = s.events) (hnext : s'.nextOp = s.nextOp)
    (hpending : pending s.events = []) (hid : x.opId = none) : History s' := by
  have hid' : ∀ q o, (s'.procs q).opId = some o → (s.procs q).opId = some o := by
    intro q o ho
    rw [hprocs] at ho
    by_cases e : q = p
    · rw [e, update_self, hid] at ho; cases ho
    · rwa [update_of_ne e] at ho
  exact {
    header := by rw [hevents]; exact h.header
    block := fun _ b => by simp [hblock, hevents, hpending]
    installed := fun _ _ => by rw [hevents, hpending]
    cleared := fun _ _ => hblock
    opId_lt := fun q o ho => by rw [hnext]; exact h.opId_lt q o (hid' q o ho)
    old := by rw [hevents, hnext]; exact h.old
    fresh := fun q o ho => by rw [hevents]; exact h.fresh q o (hid' q o ho)
    apart := by rw [hevents]; exact h.apart }

theorem step_history {s s' : State N} {a : Act N} (hs : Step s a s') (hI : Inv s) (h : History s) :
    History s' := by
  cases hs with
  | wait hp hw =>
    refine h.move_one _ rfl rfl rfl rfl (Or.inl rfl) ?_ nofun
    rcases hp with hp | hp <;> rw [hp] <;> rfl
  | enter hp hw => exact history_enter h hp
  | tooBig hp hb => exact h.move _ rfl rfl rfl (fun _ _ => id) (fun _ => rfl) fun _ => Or.inl
  | outside hp ho => exact h.move _ rfl rfl rfl (fun _ _ => id) (fun _ => rfl) fun _ => Or.inl
  | check hp hb =>
    exact h.move_one _ rfl rfl rfl rfl (Or.inr (by rw [hp]; rfl)) (by rw [hp]; rfl) nofun
  | outOfBounds hp => exact h.move _ rfl rfl rfl (fun _ _ => id) (fun _ => rfl) fun _ => Or.inl
  | write hp => exact history_write hI h hp
  | nested hp hc => exact h.move _ rfl rfl rfl (fun _ _ => id) (fun _ => rfl) fun _ => Or.inl
  | last hp hc ho =>
    by_cases hn : 0 < s.log.block.length
    · rw [if_pos hn]
      exact h.move_one _ rfl rfl rfl rfl (Or.inl rfl) (by rw [hp]; rfl) nofun
    · rw [if_neg hn]
      refine h.move_one _ rfl rfl rfl rfl (Or.inl rfl) (by rw [hp]; rfl) fun _ => ?_
      exact List.length_eq_zero_iff.mp (by omega)
  | leave hp hc ho => exact h.move_idle _ rfl rfl rfl rfl (by rw [hp]; rfl)
  | writeLog hp ht =>
    exact h.move_one _ rfl rfl rfl rfl (Or.inl rfl) (by rw [hp]; rfl) nofun
  | head hp ht => exact history_head hI h hp
  | install hp ht =>
    exact h.move_one _ rfl rfl rfl rfl (Or.inl rfl) (by rw [hp]; rfl) nofun
  | @clear p tail hp ht =>
    exact history_drained h _ rfl rfl rfl rfl (h.installed p (by rw [hp]; rfl)) rfl
  | @clearHead p hp =>
    exact history_drained h _ rfl (h.cleared p (by rw [hp]; rfl)) rfl rfl
      (h.installed p (by rw [hp]; rfl)) rfl
  | done hp => exact h.move_idle _ rfl rfl rfl rfl (by rw [hp]; rfl)
  | kill hp =>
    exact h.move_one _ rfl rfl rfl rfl (Or.inl rfl) (by rw [hp]; rfl) nofun

theorem init_history (start : ℕ) : History (init N start) where
  header := nofun
  block := fun _ b => by simp [init, pending, segments]
  installed := nofun
  cleared := nofun
  opId_lt := nofun
  old := by simp [init, pending, segments]
  fresh := nofun
  apart := List.pairwise_singleton _ _

/-! ### Nothing stays behind -/

/-- What is logged and not committed belongs to an operation in progress or to a commit. -/
def Busy (s : State N) : Prop :=
  pending s.events = [] ∨ s.log.committing = true ∨ 0 < s.log.outstanding

theorem Busy.move {s : State N} (h : Busy s) (s' : State N) (hevents : s'.events = s.events)
    (hcom : s'.log.committing = s.log.committing)
    (hout : s.log.outstanding ≤ s'.log.outstanding) : Busy s' := by
  unfold Busy at *
  rw [hevents, hcom]
  exact h.imp_right (Or.imp_right fun h => lt_of_lt_of_le h hout)

theorem pending_of_done {s : State N} (hI : Inv s) (h : History s) {p : Fin N}
    (hp : s.procs p = .done) : pending s.events = [] := by
  have hnohead : ∀ q, (s.procs q).pastHead = false := by
    intro q
    by_cases e : q = p
    · rw [e, hp]; rfl
    · exact not_pastHead (hI.not_inCommit_of_ne (by rw [hp]; rfl) e)
  have hblock := h.cleared p (by rw [hp]; rfl)
  refine List.eq_nil_iff_forall_not_mem.mpr fun x hx => ?_
  have := (h.block hnohead x.2).mpr ⟨x.1, hx⟩
  rw [hblock] at this
  cases this

theorem step_busy {s s' : State N} {a : Act N} (hs : Step s a s') (hI : Inv s) (hH : History s)
    (h : Busy s) : Busy s' := by
  cases hs with
  | wait hp hw => exact h.move _ rfl rfl le_rfl
  | enter hp hw => exact h.move _ rfl rfl (Int.le_add_one le_rfl)
  | tooBig hp hb => exact h.move _ rfl rfl le_rfl
  | outside hp ho => exact h.move _ rfl rfl le_rfl
  | check hp hb => exact h.move _ rfl rfl le_rfl
  | outOfBounds hp => exact h.move _ rfl rfl le_rfl
  | @write p o logged b hp =>
    refine Or.inr (Or.inr ?_)
    have hop : (s.procs p).inOp = true := by rw [hp]; rfl
    have := opCount_pos hop
    have := hI.outstanding
    show 0 < s.log.outstanding
    omega
  | nested hp hc => exact h.move _ rfl rfl le_rfl
  | last hp hc ho => exact Or.inr (Or.inl rfl)
  | @leave p o logged hp hc ho =>
    refine Or.inr (Or.inr ?_)
    have hop : (s.procs p).inOp = true := by rw [hp]; rfl
    have := opCount_pos hop
    have := hI.outstanding
    show 0 < s.log.outstanding - 1
    omega
  | writeLog hp ht => exact h.move _ rfl rfl le_rfl
  | head hp ht => exact Or.inl (by simp [pending])
  | install hp ht => exact h.move _ rfl rfl le_rfl
  | clear hp ht => exact h.move _ rfl rfl le_rfl
  | clearHead hp => exact h.move _ rfl rfl le_rfl
  | done hp =>
    have hpending := pending_of_done hI hH hp
    exact Or.inl hpending
  | kill hp => exact h.move _ rfl rfl le_rfl

/-! ## Isolation -/

theorem run_history {start : ℕ} {as : List (Act N)} {s : State N}
    (h : run step (init N start) as = some s) : Inv s ∧ History s ∧ Busy s := by
  refine run_invariant' (I := fun s => Inv s ∧ History s ∧ Busy s) ?_
    ⟨init_inv start, init_history start, Or.inl rfl⟩ h
  rintro s a s' ⟨hI, hH, hB⟩ hs
  have hs := (step_of_step hs).2
  exact ⟨step_inv hs hI, step_history hs hI hH, step_busy hs hI hH hB⟩

/-- A step by which an operation begins or logs. -/
def Act.enters (s' : State N) : Act N → Prop
  | .logCheck _ _ | .logWrite _ => True
  | .beginOp p => (s'.procs p).inOp = true
  | _ => False

/-- While a process commits, no operation is in progress, none begins and nothing is logged. -/
theorem commit_alone {s : State N} (hI : Inv s) {p : Fin N} (hp : (s.procs p).inCommit = true) :
    s.log.committing = true ∧ s.log.outstanding = 0 ∧
      ∀ a s', step s a = some s' → ¬ a.enters s' := by
  have hcom := hI.committing.mpr ⟨p, hp⟩
  have hcount := hI.quiet hcom
  have hno : ∀ q, (s.procs q).inOp = false := inOp_of_opCount hcount
  refine ⟨hcom, hI.outstanding.trans hcount, fun a s' hs => ?_⟩
  unfold step at hs
  split_ifs at hs
  cases a with
  | beginOp q =>
    have hbegin : s' = beginOp s q := by
      simp only at hs
      split at hs <;> cases hs <;> rfl
    have hw : s.log.waits := Or.inl hcom
    rw [hbegin]
    unfold beginOp
    rw [if_pos hw]
    show ¬ (update s.procs q (.begin true) q).inOp = true
    rw [update_self]
    exact nofun
  | logCheck q b =>
    simp only at hs
    split at hs
    · next hq => have := hno q; rw [hq] at this; cases this
    · cases hs
  | logWrite q =>
    simp only at hs
    split at hs
    · next hq => have := hno q; rw [hq] at this; cases this
    · cases hs
  | endOp q => exact id
  | commit q => exact id
  | kill q => exact id

/-- **Group-commit isolation.** In every state of every run of `begin_op`, `log_write`, `end_op`
and `commit` by any number of processes:

* while a process is in `commit`, `outstanding` is zero, and no step logs or returns from
  `begin_op`;
* the panics of `end_op` and of the second check of `log_write` have not been reached;
* the header of each commit holds exactly the blocks logged since the commit before it, and the
  blocks logged since the last commit are in `log.lh`, unless it is being cleared with none left;
* no operation has `log_write`s in two commits, or in a commit and after the last one;
* when no operation is in progress and no commit runs, every `log_write` is in a commit. -/
theorem group_commit_isolation (start : ℕ) (as : List (Act N)) (s : State N)
    (h : run step (init N start) as = some s) :
    (∀ p, (s.procs p).inCommit = true → s.log.committing = true ∧ s.log.outstanding = 0 ∧
        ∀ a s', step s a = some s' → ¬ a.enters s') ∧
      (s.panic ≠ some .committing ∧ s.panic ≠ some .outsideTrans) ∧
      (∀ c ∈ (segments s.events).1, ∀ b, b ∈ c.header ↔ ∃ o, (o, b) ∈ c.logged) ∧
      (∀ o b, (o, b) ∈ pending s.events → b ∈ s.log.block) ∧
      ((segments s.events).1.map Segment.logged ++ [pending s.events]).Pairwise Apart ∧
      (s.log.outstanding = 0 → s.log.committing = false → pending s.events = []) := by
  obtain ⟨hI, hH, hB⟩ := run_history h
  refine ⟨fun p hp => commit_alone hI hp, hI.noPanic, hH.header, ?_, hH.apart, ?_⟩
  · intro o b hb
    refine (hH.block (fun p => ?_) b).mpr ⟨o, hb⟩
    by_contra hp
    rw [hH.installed p (by simpa using hp)] at hb
    cases hb
  · intro hout hcom
    rcases hB with h | h | h
    · exact h
    · rw [hcom] at h; cases h
    · omega

/-- One operation that logs two blocks and commits them. -/
theorem group_commit_isolation_one :
    ∃ s, run step (init 1 2) [.beginOp 0, .logCheck 0 40, .logWrite 0, .logCheck 0 41,
        .logWrite 0, .endOp 0, .commit 0, .commit 0, .commit 0] = some s ∧
      (segments s.events).1.map Segment.header = [[40, 41]] ∧ pending s.events = [] ∧
      ∀ p, (s.procs p).inCommit = true → s.log.committing = true ∧ s.log.outstanding = 0 ∧
        ∀ a s', step s a = some s' → ¬ a.enters s' := by
  obtain ⟨s, hs, hheader, hpending⟩ : ∃ s, run step (init 1 2) [.beginOp 0, .logCheck 0 40,
      .logWrite 0, .logCheck 0 41, .logWrite 0, .endOp 0, .commit 0, .commit 0, .commit 0] = some s ∧
      (segments s.events).1.map Segment.header = [[40, 41]] ∧ pending s.events = [] :=
    ⟨_, rfl, rfl, rfl⟩
  exact ⟨s, hs, hheader, hpending, (group_commit_isolation 2 _ s hs).1⟩

end DuckoUnix.LogOps
