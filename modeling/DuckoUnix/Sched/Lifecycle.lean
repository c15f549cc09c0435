import DuckoUnix.Lib.Sum
import DuckoUnix.Sched.Running
import Mathlib.Data.Fintype.Basic
import Mathlib.Data.List.Nodup
import Mathlib.Algebra.GroupWithZero.Nat

/-!
# The life of a process

In every state between two steps, the parent of a process is alive, a process that runs is the
current process of one processor, and nobody sleeps in `wait` with a child to be collected. A `wait`
returns the pid of a child, and no pid is returned twice as long as `nextpid` has not come round to
pids that have been in use.
-/

namespace DuckoUnix.Sched

open Lib Function

variable {ncpu : ℕ} {s s' : Sys ncpu} {a : Act ncpu} {p np i : Fin NPROC}

/-! ## Pids -/

/-- The pid of the process that is the `n`th to be allocated. -/
def pidOf (n : ℕ) : Pid := BitVec.ofNat 32 (n + 1)

theorem pidOf_inj {m n : ℕ} (hm : m < 2 ^ 32) (hn : n < 2 ^ 32) (h : pidOf m = pidOf n) :
    m = n := by
  have := congrArg BitVec.toNat h
  unfold pidOf at this
  rw [BitVec.toNat_ofNat, BitVec.toNat_ofNat] at this
  omega

/-- The pids, with `serial i` the number of the process in entry `i` and `gone` those of the
processes that have been collected. -/
structure PidsOk (s : Sys ncpu) (serial : Fin NPROC → ℕ) (gone : List ℕ) : Prop where
  next : s.nextpid = pidOf s.allocs
  reaped : s.reaped = gone.map pidOf
  nodup : gone.Nodup
  old : ∀ n ∈ gone, n < s.allocs
  pid : ∀ i, (s.proc i).state ≠ .UNUSED → (s.proc i).pid = pidOf (serial i)
  lt : ∀ i, (s.proc i).state ≠ .UNUSED → serial i < s.allocs
  fresh : ∀ i, (s.proc i).state ≠ .UNUSED → serial i ∉ gone
  inj : ∀ i j, (s.proc i).state ≠ .UNUSED → (s.proc j).state ≠ .UNUSED → serial i = serial j → i = j

variable {serial : Fin NPROC → ℕ} {gone : List ℕ}

theorem boot_used (hi : ((boot : Sys ncpu).proc i).state ≠ .UNUSED) : i = first := by
  by_contra hne
  unfold boot at hi
  dsimp only at hi
  rw [if_neg hne] at hi
  exact hi rfl

theorem boot_pids : PidsOk (boot : Sys ncpu) (fun _ => 0) [] := by
  refine ⟨rfl, rfl, List.nodup_nil, nofun, fun i hi => ?_, fun _ _ => Nat.one_pos, fun _ _ => nofun,
    fun i j hi hj _ => ?_⟩
  · rw [boot_used hi]
    rfl
  · rw [boot_used hi, boot_used hj]

/-- No entry is taken, and those that stay in use keep their pids. -/
def KeepsPids (proc proc' : Fin NPROC → Proc) : Prop :=
  ∀ i, (proc' i).state ≠ .UNUSED → (proc i).state ≠ .UNUSED ∧ (proc' i).pid = (proc i).pid

theorem keepsPids_rfl {proc : Fin NPROC → Proc} : KeepsPids proc proc := fun _ hj => ⟨hj, rfl⟩

theorem KeepsPids.trans {proc proc' proc'' : Fin NPROC → Proc} (h : KeepsPids proc proc')
    (h' : KeepsPids proc' proc'') : KeepsPids proc proc'' := fun i hi =>
  ⟨(h i (h' i hi).1).1, (h' i hi).2.trans (h i (h' i hi).1).2⟩

theorem keepsPids_update {proc : Fin NPROC → Proc} {x : Proc}
    (hi : x.state ≠ .UNUSED → (proc i).state ≠ .UNUSED ∧ x.pid = (proc i).pid) :
    KeepsPids proc (update proc i x) := by
  intro j hj
  by_cases e : j = i
  · rw [e, update_self] at hj ⊢
    exact hi hj
  · rw [update_of_ne e] at hj ⊢
    exact ⟨hj, rfl⟩

theorem Wakes.keepsPids {proc proc' : Fin NPROC → Proc} (hw : Wakes proc proc') :
    KeepsPids proc proc' :=
  fun i hi => ⟨fun e => hi ((hw.state_iff (by decide) (by decide)).mpr e), hw.pid i⟩

theorem PidsOk.keep (h : PidsOk s serial gone) (hnext : s'.nextpid = s.nextpid)
    (hallocs : s'.allocs = s.allocs) (hreaped : s'.reaped = s.reaped)
    (hproc : KeepsPids s.proc s'.proc) : PidsOk s' serial gone where
  next := by rw [hnext, hallocs, h.next]
  reaped := hreaped.trans h.reaped
  nodup := h.nodup
  old := fun n hn => hallocs ▸ h.old n hn
  pid := fun i hi => (hproc i hi).2.trans (h.pid i (hproc i hi).1)
  lt := fun i hi => hallocs ▸ h.lt i (hproc i hi).1
  fresh := fun i hi => h.fresh i (hproc i hi).1
  inj := fun i j hi hj => h.inj i j (hproc i hi).1 (hproc j hj).1

theorem PidsOk.alloc (h : PidsOk s serial gone) {x : Proc}
    (hproc : s'.proc = update s.proc np x)
    (hx : x.pid = s.nextpid) (hnext : s'.nextpid = s.nextpid + 1)
    (hallocs : s'.allocs = s.allocs + 1) (hreaped : s'.reaped = s.reaped) :
    PidsOk s' (update serial np s.allocs) gone := by
  -- an entry in use is the new one, or it is as before
  have hused : ∀ i, (s'.proc i).state ≠ .UNUSED →
      (i = np ∧ update serial np s.allocs i = s.allocs ∧ (s'.proc i).pid = s.nextpid) ∨
      ((s.proc i).state ≠ .UNUSED ∧ update serial np s.allocs i = serial i ∧
        (s'.proc i).pid = (s.proc i).pid) := by
    intro i hi
    rw [hproc] at hi ⊢
    by_cases e : i = np
    · rw [e, update_self, update_self]
      exact .inl ⟨rfl, rfl, hx⟩
    · rw [update_of_ne e] at hi
      rw [update_of_ne e, update_of_ne e]
      exact .inr ⟨hi, rfl, rfl⟩
  constructor
  · rw [hnext, hallocs, h.next]
    unfold pidOf
    rw [BitVec.ofNat_add (s.allocs + 1) 1]
    rfl
  · rw [hreaped, h.reaped]
  · exact h.nodup
  · intro n hn
    rw [hallocs]
    exact Nat.lt_succ_of_lt (h.old n hn)
  · intro i hi
    rcases hused i hi with ⟨-, e, e'⟩ | ⟨hi, e, e'⟩
    · rw [e, e', h.next]
    · rw [e, e', h.pid i hi]
  · intro i hi
    rw [hallocs]
    rcases hused i hi with ⟨-, e, -⟩ | ⟨hi, e, -⟩
    · rw [e]
      exact Nat.lt_succ_self _
    · rw [e]
      exact Nat.lt_succ_of_lt (h.lt i hi)
  · intro i hi
    rcases hused i hi with ⟨-, e, -⟩ | ⟨hi, e, -⟩
    · rw [e]
      exact fun hmem => lt_irrefl _ (h.old _ hmem)
    · rw [e]
      exact h.fresh i hi
  · intro i j hi hj hij
    rcases hused i hi with ⟨ei, e, -⟩ | ⟨hi, e, -⟩ <;>
      rcases hused j hj with ⟨ej, e', -⟩ | ⟨hj, e', -⟩ <;> rw [e, e'] at hij
    · rw [ei, ej]
    · exact absurd (h.lt j hj) (by omega)
    · exact absurd (h.lt i hi) (by omega)
    · exact h.inj i j hi hj hij

theorem PidsOk.reap (h : PidsOk s serial gone) {x : Proc} (hz : (s.proc i).state ≠ .UNUSED)
    (hproc : s'.proc = update s.proc i x) (hx : x.state = .UNUSED)
    (hnext : s'.nextpid = s.nextpid) (hallocs : s'.allocs = s.allocs)
    (hreaped : s'.reaped = (s.proc i).pid :: s.reaped) : PidsOk s' serial (serial i :: gone) := by
  have hused : ∀ j, (s'.proc j).state ≠ .UNUSED → j ≠ i ∧ s'.proc j = s.proc j := by
    intro j hj
    have hji : j ≠ i := by
      rintro rfl
      rw [hproc, update_self] at hj
      exact hj hx
    exact ⟨hji, by rw [hproc, update_of_ne hji]⟩
  constructor
  · rw [hnext, hallocs, h.next]
  · rw [hreaped, h.reaped, h.pid i hz, List.map_cons]
  · exact List.nodup_cons.mpr ⟨h.fresh i hz, h.nodup⟩
  · intro n hn
    rw [hallocs]
    rcases List.mem_cons.mp hn with rfl | hn
    · exact h.lt i hz
    · exact h.old n hn
  · intro j hj
    obtain ⟨-, e⟩ := hused j hj
    rw [e] at hj ⊢
    exact h.pid j hj
  · intro j hj
    obtain ⟨-, e⟩ := hused j hj
    rw [e] at hj
    rw [hallocs]
    exact h.lt j hj
  · intro j hj
    obtain ⟨hji, e⟩ := hused j hj
    rw [e] at hj
    rw [List.mem_cons, not_or]
    exact ⟨fun hs => hji (h.inj j i hj hz hs), h.fresh j hj⟩
  · intro j m hj hm
    obtain ⟨-, ej⟩ := hused j hj
    obtain ⟨-, em⟩ := hused m hm
    rw [ej] at hj
    rw [em] at hm
    exact h.inj j m hj hm

theorem Effect.keepsPids (hi : Inv s) (h : Effect s a s') (hallocs : s'.allocs = s.allocs) :
    KeepsPids s.proc s'.proc := by
  cases h with
  | scheduler hc hp => exact keepsPids_update fun _ => ⟨by rw [hp]; exact nofun, rfl⟩
  | yield hc | sleep hc _ | waitSleep hc =>
    have hrun := hi.cpu.running _ _ hc
    exact keepsPids_update fun _ => ⟨by rw [hrun]; exact nofun, rfl⟩
  | wakeup => exact wakeup1_wakes.keepsPids
  | full | noWait | miss => exact keepsPids_rfl
  | alloc hc hpc hnp => exact absurd hallocs (Nat.succ_ne_self _)
  | forkFails | reap => exact keepsPids_update fun e => absurd rfl e
  | forkCopies | fault => exact keepsPids_update fun e => ⟨e, rfl⟩
  | forkReturns hc hpc =>
    have he := embryo_of_kind (hi.tree.filling (.inr hpc)).1
    exact keepsPids_update fun _ => ⟨by rw [he]; exact nofun, rfl⟩
  | @exit c p proc' hc hpc hne hleft =>
    have hrun := hi.cpu.running _ _ hc
    have hp : (proc' p).state ≠ .UNUSED := by
      rw [ne_eq, hleft.wakes.state_iff (by decide) (by decide), hrun]
      exact nofun
    have hexit : KeepsPids proc' (update proc' p { proc' p with state := .ZOMBIE }) :=
      keepsPids_update fun _ => ⟨hp, rfl⟩
    exact hleft.wakes.keepsPids.trans hexit
  | @kill pid i hi hpid =>
    refine keepsPids_update fun hx => ⟨fun e => hx ?_, rfl⟩
    dsimp only
    rw [e]
    rfl

theorem step_pids (hi : Inv s) (h : PidsOk s serial gone) (hs : step s a = some s') :
    ∃ serial' gone', PidsOk s' serial' gone' := by
  have he := step_effect hs
  have hkeeps := he.keepsPids hi
  cases he with
  | alloc hc hpc hnp => exact ⟨_, gone, h.alloc rfl rfl rfl rfl rfl⟩
  | @reap c p i hc hpc hpar hz hr =>
    exact ⟨serial, serial i :: gone, h.reap (by rw [hz]; exact nofun) rfl rfl rfl rfl rfl⟩
  | _ => exact ⟨serial, gone, h.keep rfl rfl rfl (hkeeps rfl)⟩

/-! ## The life of a process -/

/-- The process exists and has not been collected. -/
def Created (st : Procstate) : Prop :=
  st = .SLEEPING ∨ st = .RUNNABLE ∨ st = .RUNNING ∨ st = .ZOMBIE

structure Lifecycle (s : Sys ncpu) : Prop where
  parent : ∀ i, i ≠ s.initproc → Created (s.proc i).state →
    ∃ q, (s.proc i).parent = some q ∧ (s.proc q).state ≠ .UNUSED ∧ (s.proc q).state ≠ .ZOMBIE
  running : ∀ p, (s.proc p).state = .RUNNING → ∃! c, s.cpu c = some p
  asleep : ∀ p i, Waits s p → (s.proc i).parent = some p → (s.proc i).state ≠ .ZOMBIE
  /-- A pid is returned by one `wait`, -/
  once : s.allocs ≤ 2 ^ 32 → s.reaped.Nodup ∧ ∀ p pid, waitReturns s p = some pid → pid ∉ s.reaped
  /-- to the parent of its process. -/
  own : s.allocs ≤ 2 ^ 32 → ∀ p pid i, waitReturns s p = some pid →
    (s.proc i).state ≠ .UNUSED → (s.proc i).pid = pid → (s.proc i).parent = some p

theorem waitReturns_spec {pid : Pid} (h : waitReturns s p = some pid) :
    ∃ i, (s.proc i).parent = some p ∧ (s.proc i).state = .ZOMBIE ∧ (s.proc i).pid = pid := by
  obtain ⟨i, hi, rfl⟩ := Option.map_eq_some_iff.mp h
  have := List.find?_some hi
  simp only [decide_eq_true_eq] at this
  exact ⟨i, this.1, this.2, rfl⟩

theorem Inv.lifecycle (h : Inv s) (hp : PidsOk s serial gone) : Lifecycle s := by
  have hlt : s.allocs ≤ 2 ^ 32 → ∀ i, (s.proc i).state ≠ .UNUSED → serial i < 2 ^ 32 :=
    fun hle i hi => (hp.lt i hi).trans_le hle
  have hgone : s.allocs ≤ 2 ^ 32 → ∀ n ∈ gone, n < 2 ^ 32 :=
    fun hle n hn => (hp.old n hn).trans_le hle
  constructor
  · intro i hi hc
    have hk : kind s i = .live ∨ kind s i = .zombie := by
      rcases hc with e | e | e | e <;> rw [kind_eq e] <;> decide
    obtain ⟨q, hq⟩ := Option.ne_none_iff_exists'.mp (h.tree.child i hi hk)
    have hlive := h.tree.parent i q hq
    refine ⟨q, hq, ?_, ?_⟩ <;> intro e <;> rw [kind_eq e] at hlive <;> cases hlive
  · intro p hrun
    obtain ⟨c, hc⟩ := h.cpu.current p hrun
    exact ⟨c, hc, fun c' hc' => h.cpu.unique c' c p hc' hc⟩
  · exact fun p i hw hi => (h.wait p hw).2 i hi
  · intro hle
    refine ⟨?_, fun p pid hr hmem => ?_⟩
    · rw [hp.reaped]
      exact List.Nodup.map_on
        (fun m hm n hn e => pidOf_inj (hgone hle m hm) (hgone hle n hn) e) hp.nodup
    · obtain ⟨i, -, hz, rfl⟩ := waitReturns_spec hr
      have hi : (s.proc i).state ≠ .UNUSED := by rw [hz]; exact nofun
      rw [hp.reaped, hp.pid i hi] at hmem
      obtain ⟨n, hn, e⟩ := List.mem_map.mp hmem
      have := pidOf_inj (hgone hle n hn) (hlt hle i hi) e
      exact hp.fresh i hi (this ▸ hn)
  · intro hle p pid j hr hj hpid
    obtain ⟨i, hpar, hz, rfl⟩ := waitReturns_spec hr
    have hi : (s.proc i).state ≠ .UNUSED := by rw [hz]; exact nofun
    rw [hp.pid j hj, hp.pid i hi] at hpid
    rw [hp.inj j i hj hi (pidOf_inj (hlt hle j hj) (hlt hle i hi) hpid), hpar]

theorem run_inv_pids {acts : List (Act ncpu)} (hrun : run step boot acts = some s) :
    Inv s ∧ ∃ serial gone, PidsOk s serial gone :=
  run_invariant' (I := fun s => Inv s ∧ ∃ serial gone, PidsOk s serial gone)
    (fun _ _ _ ⟨hi, _, _, hp⟩ hs => ⟨step_inv hi hs, step_pids hi hp hs⟩)
    ⟨⟨boot_tree, boot_cpu, boot_wait⟩, _, _, boot_pids⟩ hrun

/-- What holds between any two steps, on any number of processors. -/
theorem process_lifecycle (acts : List (Act ncpu)) (s : Sys ncpu)
    (hrun : run step boot acts = some s) : Lifecycle s := by
  obtain ⟨hi, serial, gone, hp⟩ := run_inv_pids hrun
  exact hi.lifecycle hp

local instance oneCpu : NeZero 1 := ⟨Nat.one_ne_zero⟩

/-- init forks, the child runs and exits, and init is to run again. -/
def childExits : List (Act 1) :=
  [.fork 0, .forkCopies 0, .forkReturns 0, .yield 0, .scheduler 0 second, .exit 0,
    .scheduler 0 first]

/-- The next `wait` of init returns the pid of the child. -/
theorem process_lifecycle_child : ∃ s : Sys 1,
    run step boot (.scheduler 0 first :: childExits) = some s ∧ Lifecycle s ∧
      waitReturns s first = some 2 := by
  have heval : (run step (boot : Sys 1) (.scheduler 0 first :: childExits)).map
      (fun s => waitReturns s first) = some (some 2) := by
    decide +kernel
  obtain ⟨s, hrun, hr⟩ := Option.map_eq_some_iff.mp heval
  exact ⟨s, hrun, process_lifecycle _ s hrun, hr⟩

/-! ## Entries -/

def weight (x : Proc) : ℕ := if x.state = .UNUSED then 0 else 1

/-- The number of entries in use. -/
@[irreducible] def inUse (proc : Fin NPROC → Proc) : ℕ := ∑ i, weight (proc i)

/-- The entries that a `fork` gives back. -/
def Act.fails : Act ncpu → ℕ
  | .forkFails _ => 1
  | _ => 0

theorem inUse_update {proc : Fin NPROC → Proc} {x : Proc} {m n : ℕ}
    (hx : weight x + m = weight (proc i) + n) : inUse (update proc i x) + m = inUse proc + n := by
  have := sum_update_add weight proc i x
  unfold inUse
  omega

theorem inUse_wakes {proc proc' : Fin NPROC → Proc} (hw : Wakes proc proc') :
    inUse proc' = inUse proc := by
  unfold inUse weight
  exact Finset.sum_congr rfl fun i _ => if_congr (hw.state_iff (by decide) (by decide)) rfl rfl

theorem step_inUse (hi : Inv s) (hs : step s a = some s') :
    inUse s'.proc + (s'.reaped.length + a.fails + s.allocs) =
      inUse s.proc + (s.reaped.length + s'.allocs) := by
  cases step_effect hs with
  | scheduler hc hp => exact inUse_update (congrArg (· + _) (by simp [weight, hp]))
  | yield hc | sleep hc _ | waitSleep hc =>
    have hrun := hi.cpu.running _ _ hc
    exact inUse_update (congrArg (· + _) (by simp [weight, hrun]))
  | wakeup => exact congrArg (· + _) (inUse_wakes wakeup1_wakes)
  | full | noWait | miss => rfl
  | alloc hc hpc hnp =>
    refine inUse_update ?_
    show 1 + (s.reaped.length + 0 + s.allocs) = weight _ + (s.reaped.length + (s.allocs + 1))
    rw [weight, if_pos hnp]
    omega
  | forkFails hc hpc =>
    have he := embryo_of_kind (hi.tree.filling (.inl hpc)).1
    refine inUse_update ?_
    show 0 + (s.reaped.length + 1 + s.allocs) = weight _ + (s.reaped.length + s.allocs)
    rw [weight, he, if_neg (by decide)]
    omega
  | forkCopies | fault => exact inUse_update rfl
  | forkReturns hc hpc =>
    have he := embryo_of_kind (hi.tree.filling (.inr hpc)).1
    exact inUse_update (congrArg (· + _) (by simp [weight, he]))
  | @exit c p proc' hc hpc hne hleft =>
    have hp : (proc' p).state ≠ .UNUSED := by
      rw [ne_eq, hleft.wakes.state_iff (by decide) (by decide), hi.cpu.running _ _ hc]
      decide
    rw [← inUse_wakes hleft.wakes]
    exact inUse_update (congrArg (· + _) (by simp [weight, hp]))
  | reap hc hpc hpar hz hr =>
    refine inUse_update ?_
    show 0 + (s.reaped.length + 1 + 0 + s.allocs) = weight _ + (s.reaped.length + s.allocs)
    rw [weight, hz, if_neg (by decide)]
    omega
  | @kill pid i hi hpid =>
    refine inUse_update (congrArg (· + _) ?_)
    unfold weight
    cases (s.proc i).state <;> rfl

theorem run_inUse {acts : List (Act ncpu)} (hi : Inv s) (hrun : run step s acts = some s') :
    inUse s'.proc + (s'.reaped.length + (acts.map Act.fails).sum + s.allocs) =
      inUse s.proc + (s.reaped.length + s'.allocs) := by
  induction acts generalizing s with
  | nil => cases hrun; rfl
  | cons a acts ih =>
    obtain ⟨t, hs, hrun⟩ := run_cons_eq_some.mp hrun
    have h1 := step_inUse hi hs
    have h2 := ih (step_inv hi hs) hrun
    rw [List.map_cons, List.sum_cons]
    omega

/-- No entry is lost: each one that `allocproc` has ever taken is in use, or its process has been
collected, or its `fork` has failed. -/
theorem entries_accounted (acts : List (Act ncpu)) (s : Sys ncpu)
    (hrun : run step boot acts = some s) :
    s.allocs = inUse s.proc + s.reaped.length + (acts.map Act.fails).sum := by
  have h := run_inUse ⟨boot_tree, boot_cpu, boot_wait⟩ hrun
  have hboot : inUse (boot : Sys ncpu).proc = 1 := by
    unfold inUse
    show ∑ i, weight ((boot : Sys 0).proc i) = 1
    decide +kernel
  rw [hboot] at h
  simp only [boot, List.length_nil] at h
  omega

theorem entries_accounted_child : ∃ s : Sys 1,
    run step boot (.scheduler 0 first :: childExits ++ [.wait 0]) = some s ∧
      s.allocs = 2 ∧ inUse s.proc + s.reaped.length = 2 := by
  have heval : (run step (boot : Sys 1) (.scheduler 0 first :: childExits ++ [.wait 0])).map
      Sys.allocs = some 2 := by
    decide +kernel
  obtain ⟨s, hrun, hr⟩ := Option.map_eq_some_iff.mp heval
  exact ⟨s, hrun, hr, by rw [← hr]; exact (entries_accounted _ s hrun).symm⟩

/-! ## When nextpid comes round -/

/-- init runs, and its next `fork` takes the second entry. -/
def Forks (s : Sys 1) : Prop :=
  s.cpu 0 = some first ∧ s.pc first = .other ∧ unusedSlot s = some second

instance (s : Sys 1) : Decidable (Forks s) := inferInstanceAs (Decidable (_ ∧ _))

/-- After `n + 1` calls of `fork` that fail when `allocproc` has taken an entry and a pid. -/
def failForks (s : Sys 1) (n : ℕ) : Sys 1 :=
  { s with
    proc := update s.proc second
      { s.proc second with state := .UNUSED, pid := s.nextpid + BitVec.ofNat 32 n }
    nextpid := s.nextpid + BitVec.ofNat 32 (n + 1)
    hit := update s.hit second false
    allocs := s.allocs + (n + 1) }

variable {t : Sys 1}

theorem fork_fails (h : Forks t) : run step t [.fork 0, .forkFails 0] = some (failForks t 0) := by
  obtain ⟨hcpu, hpc, hslot⟩ := h
  have hfork : step t (.fork 0) = some (allocproc t first) := by
    simp only [step]
    rw [curproc_eq_some.mpr ⟨hcpu, hpc⟩, Option.map_some]
  have hback : update t.pc first .other = t.pc := by rw [← hpc, update_eq_self]
  rw [run_cons, hfork, Option.bind_some, run_singleton, allocproc, hslot]
  simp only [step, Sys.set, Sys.goto, hcpu, Option.bind_some, update_self, forkFails, update_idem,
    hback, failForks, BitVec.add_zero]
  rfl

theorem Forks.failForks (h : Forks t) (n : ℕ) : Forks (failForks t n) := by
  obtain ⟨hcpu, hpc, hslot⟩ := h
  have hfound := List.find?_some hslot
  have hstate : ∀ i, ((Sched.failForks t n).proc i).state = (t.proc i).state := by
    intro i
    unfold Sched.failForks
    dsimp only
    by_cases e : i = second
    · rw [e, update_self]
      exact (of_decide_eq_true hfound).symm
    · rw [update_of_ne e]
  refine ⟨hcpu, hpc, ?_⟩
  rw [← hslot]
  unfold unusedSlot
  simp only [hstate]

theorem failForks_succ (n : ℕ) : failForks (failForks t n) 0 = failForks t (n + 1) := by
  simp only [failForks, update_self, update_idem, BitVec.ofNat_add, BitVec.add_assoc,
    Nat.add_assoc]
  rfl

theorem run_failForks (h : Forks t) (n : ℕ) : ∃ acts, run step t acts = some (failForks t n) := by
  induction n with
  | zero => exact ⟨_, fork_fails h⟩
  | succ n ih =>
    obtain ⟨acts, hrun⟩ := ih
    refine ⟨acts ++ [.fork 0, .forkFails 0], run_append_eq_some.mpr ⟨_, hrun, ?_⟩⟩
    rw [fork_fails (h.failForks n), failForks_succ]

/-- What a run shows that has the failed calls in the middle. -/
theorem exists_run_failForks {α : Type} {as bs : List (Act 1)} {n : ℕ} {f : Sys 1 → α} {x : α}
    (h : (run step boot as).map (fun s => (decide (Forks s), (run step (failForks s n) bs).map f)) =
      some (true, some x)) :
    ∃ (acts : List (Act 1)) (s : Sys 1), run step boot acts = some s ∧ f s = x := by
  obtain ⟨s, hs, hx⟩ := Option.map_eq_some_iff.mp h
  obtain ⟨hforks, hx⟩ := Prod.mk.inj hx
  obtain ⟨u, hu, hfu⟩ := Option.map_eq_some_iff.mp hx
  obtain ⟨acts, hacts⟩ := run_failForks (of_decide_eq_true hforks) n
  exact ⟨as ++ (acts ++ bs), u, run_append_eq_some.mpr
    ⟨s, hs, run_append_eq_some.mpr ⟨_, hacts, hu⟩⟩, hfu⟩

/-- Between two children that exit and are collected, 2³² - 1 calls of `fork` fail: both have pid 2. -/
theorem pid_returned_twice : ∃ (acts : List (Act 1)) (s : Sys 1),
    run step boot acts = some s ∧ ¬ s.reaped.Nodup := by
  have heval : (run step (boot : Sys 1) (.scheduler 0 first :: childExits ++ [.wait 0])).map
      (fun s => (decide (Forks s),
        (run step (failForks s 4294967294) (childExits ++ [.wait 0])).map (·.reaped))) =
      some (true, some [2, 2]) := by
    decide +kernel
  obtain ⟨acts, s, hrun, hreaped⟩ := exists_run_failForks heval
  refine ⟨acts, s, hrun, ?_⟩
  rw [hreaped]
  decide

end DuckoUnix.Sched
