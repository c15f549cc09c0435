import DuckoUnix.Pipe.Wakeup

/-!
# Writing to a pipe that nobody can read

`pipewrite` looks at `readopen` only when the pipe is full. A section of it that finds room for all of
its bytes stores them and returns their number, also after the read end has been closed.
-/

namespace DuckoUnix.Pipes

open Lib Function

variable {s s' : State} {q n : ℕ} {cs : List UInt8} {a : Act} {p : Pipe}

/-- The number of bytes that `pipewrite` can store before it finds the pipe full, for counters of any
value. -/
def Pipe.room (p : Pipe) : ℕ := (p.nread + BitVec.ofNat 32 PIPESIZE - p.nwrite).toNat

theorem Pipe.room_eq_zero : p.room = 0 ↔ p.full := by
  unfold Pipe.room Pipe.full PIPESIZE
  bv_omega

theorem Pipe.room_put {c : UInt8} (h : ¬ p.full) : (p.put c).room + 1 = p.room := by
  unfold Pipe.full PIPESIZE at h
  unfold Pipe.room Pipe.put PIPESIZE
  bv_omega

theorem fill_room (cs : List UInt8) (p : Pipe) : (fill p cs).2 = cs.drop p.room := by
  induction cs generalizing p with
  | nil => rw [fill, List.drop_nil]
  | cons c cs ih =>
    rw [fill]
    by_cases hf : p.full
    · rw [if_pos hf, Pipe.room_eq_zero.mpr hf, List.drop_zero]
    · rw [if_neg hf, ih, ← Pipe.room_put hf, List.drop_succ_cons]

theorem fill_nil_iff : (fill p cs).2 = [] ↔ cs.length ≤ p.room := by
  rw [fill_room, List.drop_eq_nil_iff]

/-! ## One section -/

theorem pipewrite_fits (h : cs.length ≤ s.pipe.room) : (pipewrite s q n cs).procs q = .idle n := by
  have hnil := fill_nil_iff.mpr h
  unfold pipewrite
  simp only [hnil]
  exact update_self _ _ _

/-- Any other section fails if the read end is closed. -/
theorem pipewrite_closed (hopen : s.pipe.readopen = false) (h : s.pipe.room < cs.length) :
    (pipewrite s q n cs).procs q = .idle (-1) := by
  have hne : (fill s.pipe cs).2 ≠ [] := fun e => absurd (fill_nil_iff.mp e) (Nat.not_le.mpr h)
  rw [pipewrite_exit hne (Or.inl hopen)]
  exact update_self _ _ _

/-- A call with the read end closed fails exactly if the bytes do not fit. -/
theorem pipewrite_fails_iff (hopen : s.pipe.readopen = false) :
    (pipewrite s q n cs).procs q = .idle (-1) ↔ s.pipe.room < cs.length := by
  refine ⟨fun h => ?_, pipewrite_closed hopen⟩
  by_contra hle
  rw [pipewrite_fits (Nat.not_lt.mp hle)] at h
  injection h with h
  omega

/-! ## Runs -/

/-- The section of `pipewrite` that a step runs: the process, the length of its call, and the bytes it
has left to store. -/
def writes (s : State) : Act → Option (ℕ × ℕ × List UInt8)
  | .write q cs => some (q, cs.length, cs)
  | .resume q =>
    match s.procs q with
    | .writing n rest false => some (q, n, rest)
    | _ => none
  | _ => none

/-- If the step makes a call of `pipewrite` return `n > 0`, it has stored the last byte of the call
while the read end was open. -/
def OpenAtLast (s : State) (a : Act) (s' : State) : Prop :=
  ∀ q n cs, writes s a = some (q, n, cs) → 0 < n → s'.procs q = .idle n →
    cs ≠ [] ∧ s.pipe.readopen = true

/-- The step stores the last bytes of a call with the read end closed. -/
def Unread (s : State) (a : Act) : Prop :=
  ∃ q n cs, writes s a = some (q, n, cs) ∧ cs ≠ [] ∧ s.pipe.readopen = false ∧
    cs.length ≤ s.pipe.room

/-- A writer in the pipe has bytes left. -/
def PState.Left (x : PState) : Prop :=
  ∀ n rest asleep, x = .writing n rest asleep → rest ≠ [] ∧ rest.length ≤ n

theorem PState.left_idle (r : ℤ) : (PState.idle r).Left := fun _ _ _ h => nomatch h

theorem PState.left_reading (m : ℕ) (b : Bool) : (PState.reading m b).Left := fun _ _ _ h => nomatch h

theorem PState.Left.wake {x : PState} (h : x.Left) : x.wake.Left := by
  cases x with
  | idle r => exact h
  | reading m b => exact PState.left_reading m false
  | writing m cs b =>
    rintro n rest asleep e
    cases e
    exact h _ _ b rfl

theorem left_wakeup {procs : ℕ → PState} (h : ∀ q, (procs q).Left) (chan : Chan) (q : ℕ) :
    (wakeup chan procs q).Left := by
  unfold wakeup
  split_ifs
  · exact (h q).wake
  · exact h q

theorem left_update {procs : ℕ → PState} {x : PState} (h : ∀ q, (procs q).Left) (hx : x.Left)
    (q r : ℕ) : (update procs q x r).Left := by
  by_cases e : r = q
  · rw [e, update_self]
    exact hx
  · rw [update_of_ne e]
    exact h r

theorem pipewrite_left (h : ∀ q, (s.procs q).Left) (hn : cs.length ≤ n) (r : ℕ) :
    ((pipewrite s q n cs).procs r).Left := by
  unfold pipewrite
  cases hcase : (fill s.pipe cs).2 with
  | nil =>
    simp only [hcase]
    exact left_update (left_wakeup h .nread) (PState.left_idle _) q r
  | cons c rest =>
    simp only [hcase]
    split_ifs
    · exact left_update h (PState.left_idle _) q r
    · refine left_update (left_wakeup h .nread) ?_ q r
      rintro m cs' b e
      cases e
      refine ⟨List.cons_ne_nil c rest, ?_⟩
      rw [← hcase, fill_room, List.length_drop]
      omega

theorem piperead_left (h : ∀ q, (s.procs q).Left) (r : ℕ) : ((piperead s q n).procs r).Left := by
  unfold piperead
  split_ifs
  · exact left_update h (PState.left_idle _) q r
  · exact left_update h (PState.left_reading _ _) q r
  · exact left_update (left_wakeup h .nwrite) (PState.left_idle _) q r

theorem step_left (hstep : step s a = some s') (h : ∀ q, (s.procs q).Left) (r : ℕ) :
    (s'.procs r).Left := by
  rcases step_cases hstep with ⟨q, n, _, -, -, rfl⟩ | ⟨q, n, -, -, rfl⟩ | ⟨q, cs, _, -, -, rfl⟩ |
    ⟨q, n, rest, -, hq, rfl⟩ | ⟨w, -, rfl⟩ | ⟨q, -, rfl⟩
  · exact piperead_left h r
  · exact piperead_left h r
  · exact pipewrite_left h (Nat.le_refl _) r
  · exact pipewrite_left h (h q n rest false hq).2 r
  · cases w with
    | true => exact left_wakeup h .nread r
    | false => exact left_wakeup h .nwrite r
  · exact left_update h (h q).wake q r

theorem run_left {as : List Act} (h : run step init as = some s) (q : ℕ) : (s.procs q).Left :=
  run_invariant' (I := fun s => ∀ q, (s.procs q).Left) (fun _ _ _ h hs => step_left hs h)
    (fun _ => PState.left_idle 0) h q

/-- What a step that runs a section of `pipewrite` does. -/
theorem step_writes (hstep : step s a = some s') (hw : writes s a = some (q, n, cs)) :
    s' = pipewrite s q n cs := by
  rcases step_cases hstep with ⟨q, n, _, rfl, -, rfl⟩ | ⟨q, n, rfl, hq, rfl⟩ |
    ⟨q, cs, _, rfl, -, rfl⟩ | ⟨q, n, rest, rfl, hq, rfl⟩ | ⟨w, rfl, rfl⟩ | ⟨q, rfl, rfl⟩
  · cases hw
  · simp only [writes, hq] at hw
    cases hw
  · cases hw
    rfl
  · simp only [writes, hq] at hw
    cases hw
    rfl
  · cases hw
  · cases hw

theorem writes_left (hl : ∀ q, (s.procs q).Left) (hw : writes s a = some (q, n, cs)) :
    (0 < n → cs ≠ []) ∧ cs.length ≤ n := by
  cases a with
  | write r bs =>
    cases hw
    exact ⟨fun h => List.ne_nil_of_length_pos h, Nat.le_refl _⟩
  | resume r =>
    simp only [writes] at hw
    split at hw
    · next hq =>
      cases hw
      exact ⟨fun _ => (hl _ _ _ _ hq).1, (hl _ _ _ _ hq).2⟩
    · cases hw
  | read r m => cases hw
  | close w => cases hw
  | kill r => cases hw

theorem step_openAtLast (hl : ∀ q, (s.procs q).Left) (hstep : step s a = some s') :
    OpenAtLast s a s' ↔ ¬ Unread s a := by
  constructor
  · rintro h ⟨q, n, cs, hw, hne, hclosed, hfits⟩
    have hpos : 0 < n := Nat.lt_of_lt_of_le (List.length_pos_of_ne_nil hne) (writes_left hl hw).2
    have hret : s'.procs q = .idle n := by
      rw [step_writes hstep hw]
      exact pipewrite_fits hfits
    rw [(h q n cs hw hpos hret).2] at hclosed
    cases hclosed
  · intro h q n cs hw hpos hret
    have hne := (writes_left hl hw).1 hpos
    refine ⟨hne, Bool.not_eq_false _ ▸ fun hclosed => ?_⟩
    rw [step_writes hstep hw] at hret
    have hfits : cs.length ≤ s.pipe.room := by
      by_contra hlt
      rw [pipewrite_closed hclosed (Nat.not_le.mp hlt)] at hret
      injection hret with hret
      omega
    exact h ⟨q, n, cs, hw, hne, hclosed, hfits⟩

/-- With the read end closed, `pipewrite` fails exactly if its bytes do not fit. In a run from a new
pipe, every call that returns `n > 0` has stored its last byte while the read end was open if and only
if no section stored the last bytes of a call with the read end closed. -/
theorem pipewrite_unread_iff (as : List Act) (s : State) (hrun : run step init as = some s) :
    (∀ s q cs, s.pipe.readopen = false → cs ≠ [] →
      ((pipewrite s q cs.length cs).procs q = .idle (-1) ↔ s.pipe.room < cs.length)) ∧
    ((∀ bs a cs, as = bs ++ a :: cs → ∀ t t', run step init bs = some t → step t a = some t' →
        OpenAtLast t a t') ↔
      Meets step (fun s a => ¬ Unread s a) init as) := by
  refine ⟨fun s q cs hopen _ => pipewrite_fails_iff hopen, fun h => ?_, fun h => ?_⟩
  · refine meets_of_prefixes fun bs a cs has t ht => ?_
    rw [has] at hrun
    obtain ⟨t', ht', hrun⟩ := run_append_eq_some.mp hrun
    rw [ht] at ht'
    cases ht'
    obtain ⟨u, hu, -⟩ := run_cons_eq_some.mp hrun
    exact (step_openAtLast (run_left ht) hu).mp (h bs a cs has t u ht hu)
  · rintro bs a cs rfl t u ht hu
    exact (step_openAtLast (run_left ht) hu).mpr (h.drop ht).1

/-- A reader that is there, and 513 bytes for a pipe without one. -/
theorem pipewrite_unread_iff_byte :
    (∃ s, run step init [.write 0 [7]] = some s ∧
      ((∀ bs a cs, [Act.write 0 [7]] = bs ++ a :: cs → ∀ t t', run step init bs = some t →
          step t a = some t' → OpenAtLast t a t') ↔
        Meets step (fun s a => ¬ Unread s a) init [.write 0 [7]])) ∧
    (pipewrite (pipeclose init false) 0 (List.replicate 513 (0 : UInt8)).length
      (List.replicate 513 0)).procs 0 = .idle (-1) := by
  obtain ⟨hcall, hrun⟩ := pipewrite_unread_iff [.write 0 [7]] _ rfl
  have hlen : (List.replicate 513 (0 : UInt8)).length = 513 := List.length_replicate
  have hne : List.replicate 513 (0 : UInt8) ≠ [] := List.ne_nil_of_length_pos (by rw [hlen]; decide)
  refine ⟨⟨_, rfl, hrun⟩, (hcall _ 0 _ rfl hne).mpr ?_⟩
  rw [hlen]
  decide

/-- The read end is closed, and a byte is written. -/
theorem write_after_close :
    ∃ t s, run step init [.close false] = some t ∧ t.pipe.readopen = false ∧
      step t (.write 0 [7]) = some s ∧ s.procs 0 = .idle 1 ∧ ¬ OpenAtLast t (.write 0 [7]) s := by
  refine ⟨_, _, rfl, rfl, rfl, by decide, fun h => ?_⟩
  have := (h 0 1 [7] rfl Nat.one_pos (by decide)).2
  cases this

end DuckoUnix.Pipes
