import DuckoUnix.Sched.Model

/-!
# What a step of the process table does

The loop of `exit` as one change of the table, and `Effect`, the cases of `step` with what each of
them has tested.
-/

namespace DuckoUnix.Sched

open Lib Function

variable {ncpu : ℕ} {s s' : Sys ncpu} {a : Act ncpu} {p cur init : Fin NPROC} {chan : Chan}
  {proc proc' proc'' : Fin NPROC → Proc}

/-! ## Waking -/

/-- Some sleepers have been woken, and nothing else is different but parents. -/
structure Wakes (proc proc' : Fin NPROC → Proc) : Prop where
  pid : ∀ i, (proc' i).pid = (proc i).pid
  killed : ∀ i, (proc' i).killed = (proc i).killed
  chan : ∀ i, (proc' i).chan = (proc i).chan
  state : ∀ i, (proc' i).state = (proc i).state ∨
    (proc i).state = .SLEEPING ∧ (proc' i).state = .RUNNABLE

theorem Wakes.refl : Wakes proc proc :=
  ⟨fun _ => rfl, fun _ => rfl, fun _ => rfl, fun _ => .inl rfl⟩

theorem Wakes.trans (h : Wakes proc proc') (h' : Wakes proc' proc'') : Wakes proc proc'' where
  pid := fun i => (h'.pid i).trans (h.pid i)
  killed := fun i => (h'.killed i).trans (h.killed i)
  chan := fun i => (h'.chan i).trans (h.chan i)
  state := by
    intro i
    rcases h.state i with e | ⟨e, e'⟩
    · rw [← e]
      exact h'.state i
    · refine .inr ⟨e, ?_⟩
      rcases h'.state i with e'' | ⟨e'', -⟩
      · rw [e'', e']
      · rw [e'] at e''
        cases e''

theorem Wakes.sleeping (h : Wakes proc proc') {i : Fin NPROC}
    (hi : (proc' i).state = .SLEEPING) : (proc i).state = .SLEEPING := by
  rcases h.state i with e | ⟨e, -⟩
  · rw [← e, hi]
  · exact e

theorem Wakes.state_iff (h : Wakes proc proc') {i : Fin NPROC} {st : Procstate}
    (hs : st ≠ .SLEEPING) (hr : st ≠ .RUNNABLE) :
    (proc' i).state = st ↔ (proc i).state = st := by
  rcases h.state i with e | ⟨e, e'⟩
  · rw [e]
  · rw [e, e']
    exact iff_of_false hr.symm hs.symm

theorem Wakes.zombie_iff (h : Wakes proc proc') {i : Fin NPROC} :
    (proc' i).state = .ZOMBIE ↔ (proc i).state = .ZOMBIE :=
  h.state_iff (by decide) (by decide)

theorem wakeup1_wakes : Wakes proc (wakeup1 chan proc) := by
  constructor <;> intro i <;> unfold wakeup1 <;> split
  case state.isTrue h => exact .inr ⟨h.1, rfl⟩
  case state.isFalse => exact .inl rfl
  all_goals rfl

theorem wakeup1_parent (i : Fin NPROC) : (wakeup1 chan proc i).parent = (proc i).parent := by
  unfold wakeup1
  split <;> rfl

theorem wakeup1_awake (i : Fin NPROC) (h : (wakeup1 chan proc i).state = .SLEEPING) :
    (wakeup1 chan proc i).chan ≠ chan := by
  unfold wakeup1 at h ⊢
  split at h
  · cases h
  · rename_i hn
    rw [if_neg hn]
    exact fun e => hn ⟨h, e⟩

/-- The process sleeps on its own entry, as `wait` does. -/
def Asleep (proc : Fin NPROC → Proc) (p : Fin NPROC) : Prop :=
  (proc p).state = .SLEEPING ∧ (proc p).chan = .proc p

theorem Wakes.asleep (h : Wakes proc proc') {i : Fin NPROC} (hi : Asleep proc' i) :
    Asleep proc i :=
  ⟨h.sleeping hi.1, (h.chan i).symm.trans hi.2⟩

theorem wakeup1_not_asleep (p : Fin NPROC) : ¬ Asleep (wakeup1 (.proc p) proc) p :=
  fun h => wakeup1_awake p h.1 h.2

/-! ## Passing children to init -/

/-- The loop has been through the entries `xs`. -/
structure Passed (cur init : Fin NPROC) (xs : List (Fin NPROC)) (proc proc' : Fin NPROC → Proc) :
    Prop where
  wakes : Wakes proc proc'
  parent : ∀ i, (proc' i).parent =
    if i ∈ xs ∧ (proc i).parent = some cur then some init else (proc i).parent
  init : ∀ i ∈ xs, (proc i).parent = some cur → (proc i).state = .ZOMBIE → ¬ Asleep proc' init

theorem Passed.nil : Passed cur init [] proc proc :=
  ⟨.refl, fun i => by rw [if_neg (fun h => absurd h.1 List.not_mem_nil)], nofun⟩

theorem Passed.trans (hne : cur ≠ init) {xs ys : List (Fin NPROC)}
    (h : Passed cur init xs proc proc') (h' : Passed cur init ys proc' proc'') :
    Passed cur init (xs ++ ys) proc proc'' where
  wakes := h.wakes.trans h'.wakes
  parent := by
    intro i
    rw [h'.parent i, h.parent i]
    by_cases hp : (proc i).parent = some cur
    · by_cases hx : i ∈ xs
      · have : init ≠ cur := hne.symm
        simp [hp, hx, this]
      · simp [hp, hx]
    · simp [hp]
  init := by
    intro i hi hp hz
    by_cases hx : i ∈ xs
    · exact fun hs => h.init i hx hp hz (h'.wakes.asleep hs)
    · refine h'.init i ((List.mem_append.mp hi).resolve_left hx) ?_ ?_
      · rw [h.parent i, if_neg (fun e => hx e.1), hp]
      · rwa [h.wakes.zombie_iff]

theorem passChild_passed (x : Fin NPROC) : Passed cur init [x] proc (passChild cur init proc x) := by
  unfold passChild
  split
  · rename_i hx
    dsimp only
    have hwakes : Wakes proc (update proc x { proc x with parent := some init }) := by
      constructor <;> intro i <;> rw [update_apply] <;> split
      case state.isTrue h => rw [h]; exact .inl rfl
      case state.isFalse => exact .inl rfl
      all_goals first | rfl | (rename_i h; rw [h])
    have hparent : ∀ i, (update proc x { proc x with parent := some init } i).parent =
        if i ∈ [x] ∧ (proc i).parent = some cur then some init else (proc i).parent := by
      intro i
      by_cases e : i = x
      · rw [e, update_self, if_pos ⟨List.mem_singleton_self x, hx⟩]
      · rw [update_of_ne e, if_neg fun h => e (List.mem_singleton.mp h.1)]
    rw [update_self]
    split
    · refine ⟨hwakes.trans wakeup1_wakes, fun i => ?_, fun _ _ _ _ => wakeup1_not_asleep init⟩
      rw [wakeup1_parent, hparent]
    · rename_i hz
      refine ⟨hwakes, hparent, fun i hi _ hz' => ?_⟩
      rw [List.mem_singleton.mp hi] at hz'
      exact absurd hz' hz
  · rename_i hx
    refine ⟨.refl, fun i => ?_, fun i hi hp => ?_⟩
    · rw [if_neg]
      rintro ⟨hi, hp⟩
      rw [List.mem_singleton.mp hi] at hp
      exact hx hp
    · rw [List.mem_singleton.mp hi] at hp
      exact absurd hp hx

theorem passChildren_passed (hne : cur ≠ init) (xs : List (Fin NPROC)) :
    Passed cur init xs proc (xs.foldl (passChild cur init) proc) := by
  induction xs generalizing proc with
  | nil => exact .nil
  | cons x xs ih => exact (passChild_passed x).trans hne ih

/-! ## The cases of a step -/

/-- The table when `exit` has woken the parent of `p` and passed its children to init. -/
structure Left (s : Sys ncpu) (p : Fin NPROC) (proc' : Fin NPROC → Proc) : Prop where
  wakes : Wakes s.proc proc'
  parent : ∀ i, (proc' i).parent =
    if (s.proc i).parent = some p then some s.initproc else (s.proc i).parent
  awake : ∀ q, (s.proc p).parent = some q → ¬ Asleep proc' q
  init : ∀ i, (s.proc i).parent = some p → (s.proc i).state = .ZOMBIE → ¬ Asleep proc' s.initproc

theorem left_of_exit (hne : p ≠ s.initproc) : Left s p ((List.finRange NPROC).foldl
    (passChild p s.initproc) (wakeup1 (chanOf (s.proc p).parent) s.proc)) := by
  have hwake : Wakes s.proc (wakeup1 (chanOf (s.proc p).parent) s.proc) := wakeup1_wakes
  have h : Passed p s.initproc (List.finRange NPROC) (wakeup1 (chanOf (s.proc p).parent) s.proc) _ :=
    passChildren_passed hne _
  refine ⟨hwake.trans h.wakes, fun i => ?_, fun q hq => ?_, fun i hi hz => ?_⟩
  · rw [h.parent, wakeup1_parent]
    simp [List.mem_finRange]
  · intro hs
    have := h.wakes.asleep hs
    rw [hq] at this
    exact wakeup1_not_asleep q this
  · refine h.init i (List.mem_finRange i) ?_ (hwake.zombie_iff.mpr hz)
    rw [wakeup1_parent, hi]

/-- The cases of a step, with what it has tested. -/
inductive Effect (s : Sys ncpu) : Act ncpu → Sys ncpu → Prop
  | scheduler {c : Fin ncpu} {p : Fin NPROC} :
      s.cpu c = none → (s.proc p).state = .RUNNABLE →
      Effect s (.scheduler c p)
        { s.set p { s.proc p with state := .RUNNING, chan := .none } with
          cpu := update s.cpu c (some p) }
  | yield {c : Fin ncpu} {p : Fin NPROC} : s.cpu c = some p → Effect s (.yield c) (yield s c p)
  | sleep {c : Fin ncpu} {n : ℕ} {p : Fin NPROC} : s.cpu c = some p → s.pc p = .other →
      Effect s (.sleep c n) (sleep s c p (.other n))
  | wakeup {n : ℕ} : Effect s (.wakeup n) { s with proc := wakeup1 (.other n) s.proc }
  | full {c : Fin ncpu} : Effect s (.fork c) s
  | alloc {c : Fin ncpu} {p np : Fin NPROC} :
      s.cpu c = some p → s.pc p = .other → (s.proc np).state = .UNUSED →
      Effect s (.fork c)
        { (s.set np { s.proc np with state := .EMBRYO, pid := s.nextpid }).goto p (.forking np) with
          nextpid := s.nextpid + 1
          hit := update s.hit np false
          allocs := s.allocs + 1 }
  | forkFails {c : Fin ncpu} {p np : Fin NPROC} : s.cpu c = some p → s.pc p = .forking np →
      Effect s (.forkFails c) (forkFails s p np)
  | forkCopies {c : Fin ncpu} {p np : Fin NPROC} : s.cpu c = some p → s.pc p = .forking np →
      Effect s (.forkCopies c) (forkCopies s p np)
  | forkReturns {c : Fin ncpu} {p np : Fin NPROC} : s.cpu c = some p → s.pc p = .forked np →
      Effect s (.forkReturns c) (forkReturns s p np)
  | exit {c : Fin ncpu} {p : Fin NPROC} {proc' : Fin NPROC → Proc} :
      s.cpu c = some p → s.pc p = .other → p ≠ s.initproc → Left s p proc' →
      Effect s (.exit c) (({ s with proc := proc' }.set p { proc' p with state := .ZOMBIE }).sched c)
  | reap {c : Fin ncpu} {p i : Fin NPROC} :
      s.cpu c = some p → s.pc p = .other ∨ s.pc p = .waiting → (s.proc i).parent = some p →
      (s.proc i).state = .ZOMBIE → waitReturns s p = some (s.proc i).pid →
      Effect s (.wait c)
        { (s.set i { s.proc i with
            pid := 0, parent := none, killed := false, state := .UNUSED }).goto p .other with
          reaped := (s.proc i).pid :: s.reaped }
  | noWait {c : Fin ncpu} {p : Fin NPROC} :
      s.cpu c = some p → s.pc p = .other ∨ s.pc p = .waiting → waitReturns s p = none →
      Effect s (.wait c) (s.goto p .other)
  | waitSleep {c : Fin ncpu} {p : Fin NPROC} :
      s.cpu c = some p → s.pc p = .other ∨ s.pc p = .waiting →
      (∀ i, (s.proc i).parent = some p → (s.proc i).state ≠ .ZOMBIE) → waitReturns s p = none →
      Effect s (.wait c) ((sleep s c p (.proc p)).goto p .waiting)
  | kill {pid : Pid} {i : Fin NPROC} : withPid s pid = some i → (s.proc i).pid = pid →
      Effect s (.kill pid)
        ({ s with hit := fun j => if (s.proc j).pid = pid then true else s.hit j }.set i
          { s.proc i with
            killed := true
            state := if (s.proc i).state = Procstate.SLEEPING then .RUNNABLE else (s.proc i).state })
  | miss {pid : Pid} : withPid s pid = none →
      Effect s (.kill pid) { s with hit := fun j => if (s.proc j).pid = pid then true else s.hit j }
  | fault {c : Fin ncpu} {p : Fin NPROC} : s.cpu c = some p → s.pc p = .other →
      Effect s (.fault c) (fault s p)

theorem curproc_eq_some {c : Fin ncpu} {pc : Pc} :
    curproc s c pc = some p ↔ s.cpu c = some p ∧ s.pc p = pc := by
  unfold curproc
  rw [Option.filter_eq_some_iff, decide_eq_true_iff]

theorem wait_effect {c : Fin ncpu} (hc : s.cpu c = some p)
    (hpc : s.pc p = .other ∨ s.pc p = .waiting) : Effect s (.wait c) (wait s c p) := by
  unfold wait
  cases hz : zombieChild s p with
  | some i =>
    have hi := List.find?_some hz
    simp only [decide_eq_true_eq] at hi
    refine .reap hc hpc hi.1 hi.2 ?_
    unfold waitReturns
    rw [hz]
    rfl
  | none =>
    have hnone : waitReturns s p = none := by
      unfold waitReturns
      rw [hz]
      rfl
    dsimp only
    split
    · exact .noWait hc hpc hnone
    · refine .waitSleep hc hpc (fun i hi hzi => ?_) hnone
      have := List.find?_eq_none.mp hz i (List.mem_finRange i)
      simp [hi, hzi] at this

theorem step_effect (hs : step s a = some s') : Effect s a s' := by
  cases a with
  | scheduler c p =>
    simp only [step, scheduler, Option.ite_none_right_eq_some] at hs
    obtain ⟨⟨hc, hp⟩, hs⟩ := hs
    cases hs
    exact .scheduler hc hp
  | yield c =>
    obtain ⟨p, hc, rfl⟩ := Option.map_eq_some_iff.mp hs
    exact .yield hc
  | sleep c n =>
    obtain ⟨p, hc, rfl⟩ := Option.map_eq_some_iff.mp hs
    obtain ⟨hc, hpc⟩ := curproc_eq_some.mp hc
    exact .sleep hc hpc
  | wakeup n =>
    cases hs
    exact .wakeup
  | fork c =>
    obtain ⟨p, hc, rfl⟩ := Option.map_eq_some_iff.mp hs
    obtain ⟨hc, hpc⟩ := curproc_eq_some.mp hc
    unfold allocproc
    cases hnp : unusedSlot s with
    | none => exact .full
    | some np =>
      have := List.find?_some hnp
      exact .alloc hc hpc (of_decide_eq_true this)
  | forkFails c =>
    obtain ⟨p, hc, hs⟩ := Option.bind_eq_some_iff.mp hs
    split at hs
    · rename_i np hpc
      cases hs
      exact .forkFails hc hpc
    · cases hs
  | forkCopies c =>
    obtain ⟨p, hc, hs⟩ := Option.bind_eq_some_iff.mp hs
    split at hs
    · rename_i np hpc
      cases hs
      exact .forkCopies hc hpc
    · cases hs
  | forkReturns c =>
    obtain ⟨p, hc, hs⟩ := Option.bind_eq_some_iff.mp hs
    split at hs
    · rename_i np hpc
      cases hs
      exact .forkReturns hc hpc
    · cases hs
  | exit c =>
    obtain ⟨p, hc, hs⟩ := Option.bind_eq_some_iff.mp hs
    obtain ⟨hc, hpc⟩ := curproc_eq_some.mp hc
    unfold exit at hs
    split at hs
    · cases hs
    · rename_i hne
      cases hs
      exact .exit hc hpc hne (left_of_exit hne)
  | wait c =>
    obtain ⟨p, hc, hs⟩ := Option.bind_eq_some_iff.mp hs
    split at hs
    · rename_i hpc
      cases hs
      exact wait_effect hc (.inl hpc)
    · rename_i hpc
      cases hs
      exact wait_effect hc (.inr hpc)
    · cases hs
  | kill pid =>
    cases hs
    unfold kill
    cases hi : withPid s pid with
    | some i =>
      have := List.find?_some hi
      exact .kill hi (of_decide_eq_true this)
    | none => exact .miss hi
  | fault c =>
    obtain ⟨p, hc, rfl⟩ := Option.map_eq_some_iff.mp hs
    obtain ⟨hc, hpc⟩ := curproc_eq_some.mp hc
    exact .fault hc hpc

end DuckoUnix.Sched
