import DuckoUnix.Sched.Tree

/-!
# Processors and sleepers

The processes in state `RUNNING` are the current processes of the processors, and nobody sleeps in
`wait` with a child to be collected. With the tree of processes this is the invariant of the table.
-/

namespace DuckoUnix.Sched

open Lib Function

variable {ncpu : ℕ} {s s' : Sys ncpu} {a : Act ncpu} {c : Fin ncpu} {p np i : Fin NPROC}

/-! ## Processors -/

/-- The processes that run are the current processes of the processors, each of one. -/
structure CpuOk (s : Sys ncpu) : Prop where
  running : ∀ c p, s.cpu c = some p → (s.proc p).state = .RUNNING
  current : ∀ p, (s.proc p).state = .RUNNING → ∃ c, s.cpu c = some p
  unique : ∀ c c' p, s.cpu c = some p → s.cpu c' = some p → c = c'

theorem boot_cpu : CpuOk (boot : Sys ncpu) where
  running := nofun
  current := by
    intro p hp
    unfold boot at hp
    dsimp only at hp
    split at hp <;> cases hp
  unique := nofun

theorem CpuOk.congr (h : CpuOk s)
    (hrun : ∀ i, (s'.proc i).state = .RUNNING ↔ (s.proc i).state = .RUNNING)
    (hcpu : s'.cpu = s.cpu) : CpuOk s' where
  running := fun c p hc => (hrun p).mpr (h.running c p (hcpu ▸ hc))
  current := fun p hp => hcpu ▸ h.current p ((hrun p).mp hp)
  unique := hcpu ▸ h.unique

theorem CpuOk.set (h : CpuOk s) {x : Proc} (hproc : s'.proc = update s.proc i x)
    (hcpu : s'.cpu = s.cpu) (hi : (s.proc i).state ≠ .RUNNING) (hx : x.state ≠ .RUNNING) :
    CpuOk s' := by
  refine h.congr (fun j => ?_) hcpu
  rw [hproc]
  by_cases e : j = i
  · rw [e, update_self]
    exact iff_of_false hx hi
  · rw [update_of_ne e]

theorem CpuOk.leave (h : CpuOk s) (hc : s.cpu c = some p)
    (hcpu : s'.cpu = update s.cpu c none) {proc' : Fin NPROC → Proc} {x : Proc}
    (hproc : s'.proc = update proc' p x) (hx : x.state ≠ .RUNNING)
    (hrun : ∀ i, (proc' i).state = .RUNNING ↔ (s.proc i).state = .RUNNING) : CpuOk s' := by
  have hback : ∀ c' q, s'.cpu c' = some q → s.cpu c' = some q ∧ c' ≠ c := by
    intro c' q hq
    rw [hcpu] at hq
    by_cases e : c' = c
    · rw [e, update_self] at hq
      cases hq
    · rw [update_of_ne e] at hq
      exact ⟨hq, e⟩
  constructor
  · intro c' q hq
    obtain ⟨hq, hne⟩ := hback c' q hq
    have hqp : q ≠ p := by
      rintro rfl
      exact hne (h.unique c' c q hq hc)
    rw [hproc, update_of_ne hqp]
    exact (hrun q).mpr (h.running c' q hq)
  · intro q hq
    have hqp : q ≠ p := by
      rintro rfl
      rw [hproc, update_self] at hq
      exact hx hq
    rw [hproc, update_of_ne hqp] at hq
    obtain ⟨c', hc'⟩ := h.current q ((hrun q).mp hq)
    refine ⟨c', ?_⟩
    rw [hcpu, update_of_ne, hc']
    rintro rfl
    rw [hc] at hc'
    exact hqp (Option.some.inj hc').symm
  · intro c₁ c₂ q h₁ h₂
    exact h.unique c₁ c₂ q (hback c₁ q h₁).1 (hback c₂ q h₂).1

theorem CpuOk.enter (h : CpuOk s) (hc : s.cpu c = none) (hp : (s.proc p).state = .RUNNABLE)
    {x : Proc} (hproc : s'.proc = update s.proc p x) (hx : x.state = .RUNNING)
    (hcpu : s'.cpu = update s.cpu c (some p)) : CpuOk s' := by
  have hidle : ∀ c', s.cpu c' ≠ some p := by
    intro c' hc'
    rw [h.running c' p hc'] at hp
    cases hp
  have hself : s'.proc p = x := by rw [hproc, update_self]
  have hother : ∀ q, q ≠ p → s'.proc q = s.proc q := fun q hq => by
    rw [hproc, update_of_ne hq]
  constructor
  · intro c' q hq
    rw [hcpu] at hq
    by_cases e : c' = c
    · rw [e, update_self] at hq
      cases hq
      rw [hself, hx]
    · rw [update_of_ne e] at hq
      have hqp : q ≠ p := by
        rintro rfl
        exact hidle c' hq
      rw [hother q hqp]
      exact h.running c' q hq
  · intro q hq
    by_cases e : q = p
    · exact ⟨c, by rw [hcpu, update_self, e]⟩
    · rw [hother q e] at hq
      obtain ⟨c', hc'⟩ := h.current q hq
      refine ⟨c', ?_⟩
      rw [hcpu, update_of_ne, hc']
      rintro rfl
      rw [hc] at hc'
      cases hc'
  · rw [hcpu]
    refine unique_update (R := fun q x => x = some q) h.unique fun c' q _ hq => ?_
    cases hq
    exact hidle c'

/-! ## Sleepers in wait -/

/-- The process sleeps in `wait`. -/
def Waits (s : Sys ncpu) (p : Fin NPROC) : Prop :=
  (s.proc p).state = .SLEEPING ∧ s.pc p = .waiting

/-- Who sleeps in `wait` sleeps on its own entry and has no child to collect. -/
def WaitOk (s : Sys ncpu) : Prop :=
  ∀ p, Waits s p → (s.proc p).chan = .proc p ∧
    ∀ i, (s.proc i).parent = some p → (s.proc i).state ≠ .ZOMBIE

theorem boot_wait : WaitOk (boot : Sys ncpu) := fun _ hp => nomatch hp.2

theorem WaitOk.set (h : WaitOk s) {x : Proc} (hproc : s'.proc = update s.proc i x)
    (hpc : ∀ q, (s.proc q).state = .SLEEPING → s'.pc q = .waiting → s.pc q = .waiting)
    (hx : x.state = .SLEEPING → s'.pc i ≠ .waiting)
    (hz : x.state = .ZOMBIE → (s.proc i).state = .ZOMBIE ∧ x.parent = (s.proc i).parent) :
    WaitOk s' := by
  rintro q ⟨hq, hqpc⟩
  rw [hproc] at hq ⊢
  have hqi : q ≠ i := by
    rintro rfl
    rw [update_self] at hq
    exact hx hq hqpc
  rw [update_of_ne hqi] at hq ⊢
  obtain ⟨hchan, hkids⟩ := h q ⟨hq, hpc q hq hqpc⟩
  refine ⟨hchan, fun j hj hzj => ?_⟩
  by_cases e : j = i
  · rw [e, update_self] at hj hzj
    obtain ⟨hz, hpar⟩ := hz hzj
    exact hkids i (hpar ▸ hj) hz
  · rw [update_of_ne e] at hj hzj
    exact hkids j hj hzj

theorem WaitOk.wakes (h : WaitOk s) (hw : Wakes s.proc s'.proc) (hpc : s'.pc = s.pc)
    (hparent : ∀ i, (s'.proc i).parent = (s.proc i).parent) : WaitOk s' := by
  rintro q ⟨hq, hqpc⟩
  obtain ⟨hchan, hkids⟩ := h q ⟨hw.sleeping hq, hpc ▸ hqpc⟩
  refine ⟨(hw.chan q).trans hchan, fun i hi hz => ?_⟩
  exact hkids i (hparent i ▸ hi) (hw.zombie_iff.mp hz)

theorem WaitOk.sleep (h : WaitOk s) {x : Proc} (hproc : s'.proc = update s.proc p x)
    (hpc : s'.pc = update s.pc p .waiting) (hx : x.state = .SLEEPING)
    (hchan : x.chan = .proc p)
    (hkids : ∀ i, (s.proc i).parent = some p → (s.proc i).state ≠ .ZOMBIE) : WaitOk s' := by
  have hzombie : ∀ i q, (s'.proc i).parent = some q → (s'.proc i).state = .ZOMBIE →
      (s.proc i).parent = some q ∧ (s.proc i).state = .ZOMBIE := by
    intro i q hi hz
    rw [hproc] at hi hz
    by_cases e : i = p
    · rw [e, update_self, hx] at hz
      cases hz
    · rw [update_of_ne e] at hi hz
      exact ⟨hi, hz⟩
  rintro q ⟨hq, hqpc⟩
  by_cases e : q = p
  · rw [e]
    refine ⟨by rw [hproc, update_self, hchan], fun i hi hz => ?_⟩
    obtain ⟨hi, hz⟩ := hzombie i p hi hz
    exact hkids i hi hz
  · rw [hproc, update_of_ne e] at hq
    rw [hpc, update_of_ne e] at hqpc
    obtain ⟨hchan', hkids'⟩ := h q ⟨hq, hqpc⟩
    refine ⟨by rw [hproc, update_of_ne e, hchan'], fun i hi hz => ?_⟩
    obtain ⟨hi, hz⟩ := hzombie i q hi hz
    exact hkids' i hi hz

theorem WaitOk.exit (h : WaitOk s) (htree : Tree s) {proc' : Fin NPROC → Proc} {x : Proc}
    (hleft : Left s p proc') (hproc : s'.proc = update proc' p x)
    (hx : x.state = .ZOMBIE) (hparent : x.parent = (proc' p).parent) (hpc : s'.pc = s.pc) :
    WaitOk s' := by
  have hpar : ∀ i, (s'.proc i).parent = (proc' i).parent := by
    intro i
    rw [hproc]
    by_cases e : i = p
    · rw [e, update_self, hparent]
    · rw [update_of_ne e]
  rintro q ⟨hq, hqpc⟩
  have hqp : q ≠ p := by
    rintro rfl
    rw [hproc, update_self, hx] at hq
    cases hq
  rw [hproc, update_of_ne hqp] at hq ⊢
  obtain ⟨hchan, hkids⟩ := h q ⟨hleft.wakes.sleeping hq, hpc ▸ hqpc⟩
  have hasleep : Asleep proc' q := ⟨hq, (hleft.wakes.chan q).trans hchan⟩
  refine ⟨hasleep.2, fun i hi hz => ?_⟩
  rw [← hproc, hpar, hleft.parent] at hi
  by_cases e : i = p
  · -- the new zombie
    rw [e, if_neg (htree.proper p)] at hi
    exact hleft.awake q hi hasleep
  · rw [update_of_ne e, hleft.wakes.zombie_iff] at hz
    split at hi
    · rename_i hip
      cases hi
      exact hleft.init i hip hz hasleep
    · exact hkids i hi hz

/-! ## Steps -/

/-- The invariant of the table. -/
structure Inv (s : Sys ncpu) : Prop where
  tree : Tree s
  cpu : CpuOk s
  wait : WaitOk s

theorem Inv.kind_current (h : Inv s) (hc : s.cpu c = some p) : kind s p = .live := by
  unfold kind
  rw [h.cpu.running c p hc]
  rfl

theorem goto_waiting {pc : Pc} (hp : (s.proc p).state ≠ .SLEEPING) (q : Fin NPROC)
    (hq : (s.proc q).state = .SLEEPING) (hpc : update s.pc p pc q = .waiting) :
    s.pc q = .waiting := by
  rwa [update_of_ne] at hpc
  rintro rfl
  exact hp hq

/-- A step of `p` that changes the entry of a process that neither runs nor sleeps. -/
theorem Inv.change (h : Inv s) (htree : Tree s') {x : Proc} {pc : Pc} (hc : s.cpu c = some p)
    (hproc : s'.proc = update s.proc np x) (hcpu : s'.cpu = s.cpu)
    (hpc : s'.pc = update s.pc p pc)
    (hnp : (s.proc np).state ≠ .RUNNING)
    (hx : x.state ≠ .RUNNING ∧ x.state ≠ .SLEEPING ∧ x.state ≠ .ZOMBIE) : Inv s' := by
  have hrun : (s.proc p).state ≠ .SLEEPING := by
    rw [h.cpu.running c p hc]
    exact nofun
  refine ⟨htree, h.cpu.set hproc hcpu hnp hx.1, h.wait.set hproc (fun q hq hq' => ?_)
    (fun e => absurd e hx.2.1) fun e => absurd e hx.2.2⟩
  rw [hpc] at hq'
  exact goto_waiting hrun q hq hq'

theorem Inv.exit (h : Inv s) {proc' : Fin NPROC → Proc} (hc : s.cpu c = some p)
    (hpc : s.pc p = .other) (hne : p ≠ s.initproc) (hleft : Left s p proc') :
    Inv (({ s with proc := proc' }.set p { proc' p with state := .ZOMBIE }).sched c) := by
  have hkind := h.kind_current hc
  refine ⟨h.tree.exit hkind hpc hne (fun i => ?_) (fun i => ?_) rfl rfl,
    h.cpu.leave hc rfl rfl nofun fun i => hleft.wakes.state_iff (by decide) (by decide),
    h.wait.exit h.tree hleft rfl rfl rfl rfl⟩
  · show (update proc' p { proc' p with state := .ZOMBIE } i).state.kind = _
    split
    · rename_i e
      rw [e, update_self]
      rfl
    · rename_i e
      rw [update_of_ne e, hleft.wakes.kind, kind]
  · show (update proc' p { proc' p with state := .ZOMBIE } i).parent = _
    rw [← hleft.parent]
    by_cases e : i = p
    · rw [e, update_self]
    · rw [update_of_ne e]

theorem step_inv (h : Inv s) (hs : step s a = some s') : Inv s' := by
  have htree := h.tree
  have hcpu := h.cpu
  have hwait := h.wait
  cases step_effect hs with
  | @scheduler c p hc hp =>
    exact ⟨htree.set rfl (kind_eq hp).symm rfl rfl rfl, hcpu.enter hc hp rfl rfl rfl,
      hwait.set rfl (fun _ _ => id) nofun nofun⟩
  | @yield c p hc =>
    have hrun := hcpu.running c p hc
    exact ⟨htree.set rfl (kind_eq hrun).symm rfl rfl rfl,
      hcpu.leave hc rfl rfl nofun fun _ => .rfl, hwait.set rfl (fun _ _ => id) nofun nofun⟩
  | @sleep c n p hc hpc =>
    have hrun := hcpu.running c p hc
    refine ⟨htree.set rfl (kind_eq hrun).symm rfl rfl rfl,
      hcpu.leave hc rfl rfl nofun fun _ => .rfl, hwait.set rfl (fun _ _ => id) (fun _ => ?_) nofun⟩
    show s.pc p ≠ .waiting
    rw [hpc]
    exact nofun
  | @wakeup n =>
    have hw : Wakes s.proc (wakeup1 (.other n) s.proc) := wakeup1_wakes
    exact ⟨htree.congr hw.kind wakeup1_parent rfl htree.pc (fun _ _ => .rfl) fun _ _ => .rfl,
      hcpu.congr (fun i => hw.state_iff (by decide) (by decide)) rfl,
      hwait.wakes hw rfl wakeup1_parent⟩
  | full => exact h
  | @alloc c p np hc hpc hnp =>
    have hk : kind s np = .unused := kind_eq hnp
    refine h.change ?_ hc rfl rfl rfl (by rw [hnp]; exact nofun) ⟨nofun, nofun, nofun⟩
    refine htree.change rfl rfl rfl (h.kind_current hc) (by rw [hk]; exact nofun) (fun q hq => ?_)
      (.inl (htree.unused np hk)) nofun (by rintro (e | e) <;> cases e) ?_ nofun
    · have := (htree.filling hq).1
      rw [hk] at this
      cases this
    · intro i hi
      cases hi
      exact ⟨rfl, rfl, htree.unused np hk⟩
  | @forkFails c p np hc hpc =>
    obtain ⟨hk, hfills⟩ := htree.filling (.inl hpc)
    have hnone := (htree.forking p np hpc).2
    exact h.change (htree.change rfl rfl rfl (h.kind_current hc) (by rw [hk]; exact nofun) hfills
      (.inl hnone) (fun _ => hnone) (by rintro (e | e) <;> cases e) nofun nofun) hc rfl rfl rfl
      (by rw [embryo_of_kind hk]; exact nofun) ⟨nofun, nofun, nofun⟩
  | @forkCopies c p np hc hpc =>
    obtain ⟨hk, hfills⟩ := htree.filling (.inl hpc)
    have he := embryo_of_kind hk
    refine h.change (htree.change rfl rfl rfl (h.kind_current hc) (by rw [hk]; exact nofun) hfills
      (.inr rfl) (fun e => ?_) (fun _ => nofun) nofun ?_) hc rfl rfl rfl (by rw [he]; exact nofun) ?_
    · rw [show (s.proc np).state.kind = .embryo from hk] at e
      cases e
    · intro i hi
      cases hi
      exact ⟨rfl, hk, rfl⟩
    · dsimp only
      rw [he]
      exact ⟨nofun, nofun, nofun⟩
  | @forkReturns c p np hc hpc =>
    obtain ⟨hk, hfills⟩ := htree.filling (.inr hpc)
    have hpar := (htree.forked p np hpc).2
    refine h.change (htree.change rfl rfl rfl (h.kind_current hc) (by rw [hk]; exact nofun) hfills
      (.inr hpar) nofun (fun _ e => ?_) nofun nofun) hc rfl rfl rfl
      (by rw [embryo_of_kind hk]; exact nofun) ⟨nofun, nofun, nofun⟩
    rw [show (s.proc np).parent = none from e] at hpar
    cases hpar
  | @exit c p proc' hc hpc hne hleft => exact h.exit hc hpc hne hleft
  | @reap c p i hc hpc hpar hz hr =>
    have hk : kind s i = .zombie := kind_eq hz
    refine h.change (htree.change rfl rfl rfl (h.kind_current hc) (by rw [hk]; exact nofun)
      (fun q hq => ?_) (.inl rfl) (fun _ => rfl) (by rintro (e | e) <;> cases e) nofun nofun)
      hc rfl rfl rfl (by rw [hz]; exact nofun) ⟨nofun, nofun, nofun⟩
    have := (htree.filling hq).1
    rw [hk] at this
    cases this
  | @noWait c p hc hpc hr =>
    have hrun := hcpu.running c p hc
    refine ⟨htree.goto (fun _ => rfl) (fun _ => rfl) rfl rfl (h.kind_current hc) hpc (.inl rfl),
      hcpu.congr (fun _ => .rfl) rfl, fun q hq => hwait q ⟨hq.1, ?_⟩⟩
    exact goto_waiting (by rw [hrun]; exact nofun) q hq.1 hq.2
  | @waitSleep c p hc hpc hkids hr =>
    have hrun := hcpu.running c p hc
    have htree' : Tree (sleep s c p (.proc p)) :=
      htree.set rfl (kind_eq hrun).symm rfl rfl rfl
    refine ⟨htree'.goto (fun _ => rfl) (fun _ => rfl) rfl rfl ?_ hpc (.inr rfl),
      hcpu.leave hc rfl rfl nofun fun _ => .rfl, hwait.sleep rfl rfl rfl rfl hkids⟩
    show (update s.proc p _ p).state.kind = _
    rw [update_self]
    rfl
  | @kill pid i hi hpid =>
    refine ⟨htree.set rfl ?_ rfl rfl rfl, hcpu.congr (fun j => ?_) rfl,
      hwait.set rfl (fun _ _ => id) ?_ ?_⟩
    · rw [kind]
      cases (s.proc i).state <;> rfl
    · show (update s.proc i _ j).state = .RUNNING ↔ _
      by_cases e : j = i
      · rw [e, update_self]
        dsimp only
        cases (s.proc i).state <;> decide
      · rw [update_of_ne e]
    · cases (s.proc i).state <;> simp
    · cases (s.proc i).state <;> simp
  | miss =>
    exact ⟨htree.congr (fun _ => rfl) (fun _ => rfl) rfl htree.pc (fun _ _ => .rfl) fun _ _ => .rfl,
      hcpu.congr (fun _ => .rfl) rfl, hwait⟩
  | @fault c p hc hpc =>
    have hrun := hcpu.running c p hc
    refine ⟨htree.set rfl rfl rfl rfl rfl, hcpu.congr (fun j => ?_) rfl,
      hwait.set rfl (fun _ _ => id) ?_ ?_⟩
    · show (update s.proc p _ j).state = .RUNNING ↔ _
      by_cases e : j = p
      · rw [e, update_self]
      · rw [update_of_ne e]
    · simp [hrun]
    · exact fun e => ⟨e, rfl⟩

end DuckoUnix.Sched
