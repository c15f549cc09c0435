import DuckoUnix.Pipe.Model

/-!
# Wakeups on a pipe

`NoLostWakeup` is what the sleeping processes of a pipe rely on: a reader sleeps only on an empty
pipe with a writer, a writer only on a full pipe with a reader. Every section keeps it except one
(`step_noLost`): the `return -1` inside the loop of `pipewrite` does not wake the readers, so a
writer that fills an empty pipe and then finds itself killed, or the read end closed, leaves a
sleeping reader behind (`Strands`). Along a run, no wakeup is lost exactly when no step is of this
kind (`no_lost_wakeup_iff`).
-/

namespace DuckoUnix.Pipes

open Lib Function

/-- No process sleeps on a condition that has become true. -/
def NoLostWakeup (s : State) : Prop :=
  ∀ q, ((s.procs q).chan = some .nread → s.pipe.nread = s.pipe.nwrite ∧ s.pipe.writeopen = true) ∧
    ((s.procs q).chan = some .nwrite → s.pipe.full ∧ s.pipe.readopen = true)

/-- With the bytes `cs` left to store, process `q` overfills a pipe some reader sleeps on, and is
killed or has no reader left. -/
def StrandsReader (s : State) (q : ℕ) (cs : List UInt8) : Prop :=
  (∃ r, (s.procs r).chan = some .nread) ∧ PIPESIZE < cs.length ∧
    (s.pipe.readopen = false ∨ s.killed q = true)

/-- The step is a section of `pipewrite` that strands a reader. -/
def Strands (s : State) : Act → Prop
  | .write q cs => StrandsReader s q cs
  | .resume q => ∃ n rest, s.procs q = .writing n rest false ∧ StrandsReader s q rest
  | _ => False

/-! ## Sleeping processes -/

@[simp] theorem chan_wake (x : PState) : x.wake.chan = none := by
  cases x <;> rfl

theorem chan_wakeup (c d : Chan) (procs : ℕ → PState) (q : ℕ) :
    (wakeup c procs q).chan = some d ↔ (procs q).chan = some d ∧ d ≠ c := by
  unfold wakeup
  by_cases h : (procs q).chan = some c
  · rw [if_pos h, h, chan_wake]
    simp [eq_comm]
  · rw [if_neg h]
    constructor
    · intro hd
      exact ⟨hd, fun e => h (e ▸ hd)⟩
    · exact And.left

theorem chan_update {procs : ℕ → PState} {q r : ℕ} {x : PState} {d : Chan}
    (h : (update procs q x r).chan = some d) :
    (r = q ∧ x.chan = some d) ∨ (procs r).chan = some d := by
  by_cases e : r = q
  · subst e
    rw [update_self] at h
    exact Or.inl ⟨rfl, h⟩
  · rw [update_of_ne e] at h
    exact Or.inr h

/-! ## Each section -/

theorem piperead_noLost {s : State} {q n : ℕ} (h : NoLostWakeup s) :
    NoLostWakeup (piperead s q n) := by
  unfold piperead
  split_ifs with he hk
  · intro r
    refine ⟨fun hr => ?_, fun hr => ?_⟩
    · rcases chan_update hr with ⟨-, hx⟩ | hr
      · cases hx
      · exact (h r).1 hr
    · rcases chan_update hr with ⟨-, hx⟩ | hr
      · cases hx
      · exact (h r).2 hr
  · intro r
    refine ⟨fun _ => he, fun hr => ?_⟩
    rcases chan_update hr with ⟨-, hx⟩ | hr
    · cases hx
    · exact (h r).2 hr
  · -- the readers that slept did so on an empty open pipe, which this one is not
    intro r
    refine ⟨fun hr => ?_, fun hr => ?_⟩
    · rcases chan_update hr with ⟨-, hx⟩ | hr
      · cases hx
      · exact absurd ((h r).1 ((chan_wakeup _ _ _ _).mp hr).1) he
    · rcases chan_update hr with ⟨-, hx⟩ | hr
      · cases hx
      · exact absurd rfl ((chan_wakeup _ _ _ _).mp hr).2

/-- The section of `pipewrite` keeps the property exactly when it does not strand a reader. -/
theorem pipewrite_noLost {s : State} {q n : ℕ} {cs : List UInt8} (hc : s.pipe.count ≤ PIPESIZE)
    (hq : (s.procs q).chan = none) (h : NoLostWakeup s) :
    NoLostWakeup (pipewrite s q n cs) ↔ ¬ StrandsReader s q cs := by
  obtain ⟨hrest, hcount⟩ := fill_spec cs s.pipe hc
  obtain ⟨hro, hwo, -⟩ := fill_open cs s.pipe
  -- a sleeping reader means an empty pipe, a sleeping writer a full one
  have hempty : ∀ r, (s.procs r).chan = some .nread → s.pipe.count = 0 :=
    fun r hr => s.pipe.empty_iff.mp ((h r).1 hr).1
  have hfull : ∀ r, (s.procs r).chan = some .nwrite → (fill s.pipe cs).1.full := by
    intro r hr
    have := s.pipe.full_iff.mp ((h r).2 hr).1
    rw [Pipe.full_iff, hcount]
    omega
  unfold pipewrite
  cases hcase : (fill s.pipe cs).2 with
  | nil =>
    simp only [hcase]
    have hlen : cs.length ≤ PIPESIZE - s.pipe.count := by
      rw [hrest] at hcase
      exact List.drop_eq_nil_iff.mp hcase
    refine iff_of_true (fun r => ⟨fun hr => ?_, fun hr => ?_⟩) ?_
    · rcases chan_update hr with ⟨-, hx⟩ | hr
      · cases hx
      · exact absurd rfl ((chan_wakeup _ _ _ _).mp hr).2
    · rcases chan_update hr with ⟨-, hx⟩ | hr
      · cases hx
      · have hr' := ((chan_wakeup _ _ _ _).mp hr).1
        exact ⟨hfull r hr', by rw [hro]; exact ((h r).2 hr').2⟩
    · rintro ⟨-, hlong, -⟩
      omega
  | cons c rest =>
    simp only [hcase]
    have hfull' : (fill s.pipe cs).1.count = PIPESIZE := by
      have : cs.length - (PIPESIZE - s.pipe.count) ≠ 0 := by
        rw [← List.length_drop, ← hrest, hcase]
        exact Nat.succ_ne_zero _
      rw [hcount]
      omega
    rw [hro]
    split_ifs with hexit
    · constructor
      · -- the pipe is now full, so a reader that still sleeps is stranded
        rintro hN ⟨⟨r, hr⟩, -, -⟩
        have hne : r ≠ q := by
          rintro rfl
          rw [hq] at hr
          cases hr
        have hsleeps : (update s.procs q (.idle (-1)) r).chan = some .nread := by
          rw [update_of_ne hne]
          exact hr
        have he := (Pipe.empty_iff _).mp ((hN r).1 hsleeps).1
        rw [he] at hfull'
        cases hfull'
      · intro hS r
        refine ⟨fun hr => ?_, fun hr => ?_⟩
        · rcases chan_update hr with ⟨-, hx⟩ | hr
          · cases hx
          · refine absurd ⟨⟨r, hr⟩, ?_, hexit⟩ hS
            have h0 := hempty r hr
            rw [hrest, h0] at hcase
            by_contra hle
            rw [List.drop_eq_nil_of_le (by omega)] at hcase
            cases hcase
        · rcases chan_update hr with ⟨-, hx⟩ | hr
          · cases hx
          · exact ⟨hfull r hr, by rw [hro]; exact ((h r).2 hr).2⟩
    · rw [not_or, Bool.not_eq_false] at hexit
      refine iff_of_true (fun r => ⟨fun hr => ?_, fun _ => ?_⟩) fun hS => ?_
      · rcases chan_update hr with ⟨-, hx⟩ | hr
        · cases hx
        · exact absurd rfl ((chan_wakeup _ _ _ _).mp hr).2
      · exact ⟨(Pipe.full_iff _).mpr hfull', by rw [hro]; exact hexit.1⟩
      · rcases hS.2.2 with h1 | h1
        · rw [hexit.1] at h1
          cases h1
        · exact hexit.2 h1

theorem pipeclose_noLost {s : State} {writable : Bool} (h : NoLostWakeup s) :
    NoLostWakeup (pipeclose s writable) := by
  cases writable with
  | true =>
    intro r
    refine ⟨fun hr => ?_, fun hr => ?_⟩
    · exact absurd rfl ((chan_wakeup _ _ _ _).mp hr).2
    · exact (h r).2 ((chan_wakeup _ _ _ _).mp hr).1
  | false =>
    intro r
    refine ⟨fun hr => ?_, fun hr => ?_⟩
    · exact (h r).1 ((chan_wakeup _ _ _ _).mp hr).1
    · exact absurd rfl ((chan_wakeup _ _ _ _).mp hr).2

theorem kill_noLost {s : State} {q : ℕ} (h : NoLostWakeup s) : NoLostWakeup (kill s q) := by
  intro r
  refine ⟨fun hr => ?_, fun hr => ?_⟩
  · rcases chan_update hr with ⟨-, hx⟩ | hr
    · rw [chan_wake] at hx; cases hx
    · exact (h r).1 hr
  · rcases chan_update hr with ⟨-, hx⟩ | hr
    · rw [chan_wake] at hx; cases hx
    · exact (h r).2 hr

/-! ## The counters stay within one buffer -/

theorem pipewrite_pipe (s : State) (q n : ℕ) (cs : List UInt8) :
    (pipewrite s q n cs).pipe = (fill s.pipe cs).1 := by
  unfold pipewrite
  cases hcase : (fill s.pipe cs).2 with
  | nil => simp only [hcase]
  | cons c rest => simp only [hcase]; split_ifs <;> rfl

theorem pipewrite_exit {s : State} {q n : ℕ} {cs : List UInt8} (hr : (fill s.pipe cs).2 ≠ [])
    (he : s.pipe.readopen = false ∨ s.killed q = true) :
    (pipewrite s q n cs).procs = update s.procs q (.idle (-1)) := by
  unfold pipewrite
  cases hcase : (fill s.pipe cs).2 with
  | nil => exact absurd hcase hr
  | cons c rest =>
    simp only [hcase]
    rw [(fill_open cs s.pipe).1, if_pos he]

theorem pipewrite_count {s : State} {q n : ℕ} {cs : List UInt8}
    (hc : s.pipe.count ≤ PIPESIZE) : (pipewrite s q n cs).pipe.count ≤ PIPESIZE := by
  rw [pipewrite_pipe, (fill_spec cs s.pipe hc).2]
  exact min_le_left _ _

theorem piperead_count {s : State} {q n : ℕ} (hc : s.pipe.count ≤ PIPESIZE) :
    (piperead s q n).pipe.count ≤ PIPESIZE := by
  unfold piperead
  split_ifs
  · exact hc
  · exact hc
  · have := (drain_spec n s.pipe).1
    show (drain s.pipe n).1.count ≤ PIPESIZE
    omega

theorem pipeclose_count {s : State} {writable : Bool} (hc : s.pipe.count ≤ PIPESIZE) :
    (pipeclose s writable).pipe.count ≤ PIPESIZE := by
  cases writable <;> exact hc

/-! ## Steps and runs -/

/-- What a step can be: each action with the state it needs and the state it leaves. -/
theorem step_cases {s s' : State} {a : Act} (h : step s a = some s') :
    (∃ q n r, a = .read q n ∧ s.procs q = .idle r ∧ s' = piperead s q n) ∨
    (∃ q n, a = .resume q ∧ s.procs q = .reading n false ∧ s' = piperead s q n) ∨
    (∃ q cs r, a = .write q cs ∧ s.procs q = .idle r ∧ s' = pipewrite s q cs.length cs) ∨
    (∃ q n rest, a = .resume q ∧ s.procs q = .writing n rest false ∧ s' = pipewrite s q n rest) ∨
    (∃ w, a = .close w ∧ s' = pipeclose s w) ∨
    (∃ q, a = .kill q ∧ s' = kill s q) := by
  cases a with
  | read q n =>
    simp only [step] at h
    split at h
    · next hq => cases h; exact Or.inl ⟨q, n, _, rfl, hq, rfl⟩
    · cases h
  | write q cs =>
    simp only [step] at h
    split at h
    · next hq => cases h; exact Or.inr (Or.inr (Or.inl ⟨q, cs, _, rfl, hq, rfl⟩))
    · cases h
  | resume q =>
    simp only [step] at h
    split at h
    · next hq => cases h; exact Or.inr (Or.inl ⟨q, _, rfl, hq, rfl⟩)
    · next hq => cases h; exact Or.inr (Or.inr (Or.inr (Or.inl ⟨q, _, _, rfl, hq, rfl⟩)))
    · cases h
  | close w =>
    simp only [step] at h
    split_ifs at h
    cases h
    exact Or.inr (Or.inr (Or.inr (Or.inr (Or.inl ⟨w, rfl, rfl⟩))))
  | kill q =>
    cases h
    exact Or.inr (Or.inr (Or.inr (Or.inr (Or.inr ⟨q, rfl, rfl⟩))))

theorem step_count {s s' : State} {a : Act} (h : step s a = some s')
    (hc : s.pipe.count ≤ PIPESIZE) : s'.pipe.count ≤ PIPESIZE := by
  rcases step_cases h with ⟨q, n, r, -, -, rfl⟩ | ⟨q, n, -, -, rfl⟩ | ⟨q, cs, r, -, -, rfl⟩ |
    ⟨q, n, rest, -, -, rfl⟩ | ⟨w, -, rfl⟩ | ⟨q, -, rfl⟩
  · exact piperead_count hc
  · exact piperead_count hc
  · exact pipewrite_count hc
  · exact pipewrite_count hc
  · exact pipeclose_count hc
  · exact hc

theorem step_noLost {s s' : State} {a : Act} (h : step s a = some s')
    (hc : s.pipe.count ≤ PIPESIZE) (hN : NoLostWakeup s) :
    NoLostWakeup s' ↔ ¬ Strands s a := by
  rcases step_cases h with ⟨q, n, r, rfl, hq, rfl⟩ | ⟨q, n, rfl, hq, rfl⟩ |
    ⟨q, cs, r, rfl, hq, rfl⟩ | ⟨q, n, rest, rfl, hq, rfl⟩ | ⟨w, rfl, rfl⟩ | ⟨q, rfl, rfl⟩
  · exact iff_of_true (piperead_noLost hN) id
  · refine iff_of_true (piperead_noLost hN) ?_
    rintro ⟨m, rest, hq', -⟩
    rw [hq] at hq'
    cases hq'
  · exact pipewrite_noLost hc (by rw [hq]; rfl) hN
  · rw [pipewrite_noLost hc (by rw [hq]; rfl) hN]
    refine not_congr ⟨fun hS => ⟨n, rest, hq, hS⟩, ?_⟩
    rintro ⟨m, rest', hq', hS⟩
    rw [hq] at hq'
    cases hq'
    exact hS
  · exact iff_of_true (pipeclose_noLost hN) id
  · exact iff_of_true (kill_noLost hN) id

theorem init_noLost : NoLostWakeup init := by
  intro q
  refine ⟨fun h => ?_, fun h => ?_⟩ <;> cases h

theorem run_noLost {as : List Act} {s : State}
    (hok : Meets step (fun s a => ¬ Strands s a) init as) (h : run step init as = some s) :
    s.pipe.count ≤ PIPESIZE ∧ NoLostWakeup s := by
  refine run_invariant (I := fun s => s.pipe.count ≤ PIPESIZE ∧ NoLostWakeup s) ?_
    ⟨by decide, init_noLost⟩ hok h
  intro s a s' hI hS hs
  exact ⟨step_count hs hI.1, (step_noLost hs hI.1 hI.2).mpr hS⟩

/-- **No lost wakeup.** In a run of `piperead`, `pipewrite`, `pipeclose` and `kill` from a new
pipe, no process ever sleeps on a condition that has become true if and only if no section of
`pipewrite` strands a reader. -/
theorem no_lost_wakeup_iff (as : List Act) (s : State) (h : run step init as = some s) :
    (∀ bs cs, as = bs ++ cs → ∀ t, run step init bs = some t → NoLostWakeup t) ↔
      Meets step (fun s a => ¬ Strands s a) init as := by
  constructor
  · intro hN
    refine meets_of_prefixes fun bs a cs has t ht => ?_
    -- the step after `bs` is taken, and both its ends have the property
    have hcount : t.pipe.count ≤ PIPESIZE :=
      run_invariant' (I := fun s => s.pipe.count ≤ PIPESIZE)
        (fun s a s' hc hs => step_count hs hc) (by decide) ht
    rw [has] at h
    obtain ⟨t', ht', h⟩ := run_append_eq_some.mp h
    rw [ht] at ht'
    cases ht'
    obtain ⟨u, hu, -⟩ := run_cons_eq_some.mp h
    have hnext : run step init (bs ++ [a]) = some u :=
      run_append_eq_some.mpr ⟨t, ht, by rw [run_singleton]; exact hu⟩
    exact (step_noLost hu hcount (hN bs (a :: cs) has t ht)).mp
      (hN (bs ++ [a]) cs (by rw [has, List.append_assoc]; rfl) u hnext)
  · intro hok bs cs has t ht
    rw [has] at hok
    exact (run_noLost hok.of_append ht).2

/-- A reader that sleeps and a writer that wakes it. -/
theorem no_lost_wakeup_iff_read_write :
    ∃ s, run step init [.read 0 1, .write 1 [7], .resume 0] = some s ∧
      ((∀ bs cs, [Act.read 0 1, .write 1 [7], .resume 0] = bs ++ cs →
          ∀ t, run step init bs = some t → NoLostWakeup t) ↔
        Meets step (fun s a => ¬ Strands s a) init [.read 0 1, .write 1 [7], .resume 0]) :=
  ⟨_, rfl, no_lost_wakeup_iff _ _ rfl⟩

/-- Reader `0` sleeps on the empty pipe; writer `1`, killed, fills the pipe and returns `-1`. -/
theorem killed_writer_strands_reader :
    ∃ s, run step init [.read 0 1, .kill 1, .write 1 (List.replicate 513 0)] = some s ∧
      (s.procs 0).chan = some .nread ∧ s.pipe.nread ≠ s.pipe.nwrite ∧ ¬ NoLostWakeup s := by
  obtain ⟨t, ht, hcount, hkilled, hsleeps⟩ : ∃ t, run step init [.read 0 1, .kill 1] = some t ∧
      t.pipe.count = 0 ∧ t.killed 1 = true ∧ (t.procs 0).chan = some .nread :=
    ⟨_, rfl, by decide, rfl, rfl⟩
  have hidle : t.freed = false ∧ t.procs 1 = .idle 0 := by cases ht; exact ⟨rfl, rfl⟩
  generalize hcs : List.replicate 513 (0 : UInt8) = cs
  have hlen : cs.length = 513 := by rw [← hcs, List.length_replicate]
  obtain ⟨hrest, hfill⟩ := fill_spec cs t.pipe (by omega)
  have hne : (fill t.pipe cs).2 ≠ [] := by
    rw [hrest, hcount]
    intro h
    have := List.drop_eq_nil_iff.mp h
    rw [hlen] at this
    exact absurd this (by decide)
  have hstep : step t (.write 1 cs) = some (pipewrite t 1 cs.length cs) := by
    simp only [step, hidle.1, hidle.2]
  have hproc : ((pipewrite t 1 cs.length cs).procs 0).chan = some .nread := by
    rw [pipewrite_exit hne (Or.inr hkilled)]
    exact hsleeps
  have hpipe : (pipewrite t 1 cs.length cs).pipe.nread ≠ (pipewrite t 1 cs.length cs).pipe.nwrite := by
    rw [pipewrite_pipe, ne_eq, Pipe.empty_iff, hfill, hcount, hlen]
    decide
  refine ⟨pipewrite t 1 cs.length cs, ?_, hproc, hpipe, fun hN => hpipe ((hN 0).1 hproc).1⟩
  exact (@run_append _ _ step init [.read 0 1, .kill 1] [.write 1 cs]).trans
    (by rw [ht, Option.bind_some, run_singleton, hstep])

end DuckoUnix.Pipes
