import DuckoUnix.Lib.Sum
import DuckoUnix.Sched.Steps

/-!
# The tree of processes

Every process but init has a parent, and a parent is alive: `exit` passes children to init before
the process becomes a zombie, and only zombies are collected. A process in `fork` fills an entry
that no other process fills.
-/

namespace DuckoUnix.Sched

open Lib Function

variable {ncpu : ℕ} {s s' : Sys ncpu} {p np i : Fin NPROC}

/-! ## Parents -/

/-- The stages of a process. -/
inductive Kind
  | unused
  | embryo
  | live
  | zombie
  deriving DecidableEq

def Procstate.kind : Procstate → Kind
  | .UNUSED => .unused
  | .EMBRYO => .embryo
  | .SLEEPING => .live
  | .RUNNABLE => .live
  | .RUNNING => .live
  | .ZOMBIE => .zombie

def kind (s : Sys ncpu) (i : Fin NPROC) : Kind := (s.proc i).state.kind

/-- The process is filling the entry `i` in `fork`. -/
def Fills (s : Sys ncpu) (q i : Fin NPROC) : Prop := s.pc q = .forking i ∨ s.pc q = .forked i

/-- Every process but init hangs below a live one. -/
structure Tree (s : Sys ncpu) : Prop where
  init : kind s s.initproc = .live
  root : (s.proc s.initproc).parent = none
  parent : ∀ i q, (s.proc i).parent = some q → kind s q = .live
  proper : ∀ i, (s.proc i).parent ≠ some i
  unused : ∀ i, kind s i = .unused → (s.proc i).parent = none
  child : ∀ i, i ≠ s.initproc → kind s i = .live ∨ kind s i = .zombie → (s.proc i).parent ≠ none
  pc : ∀ q, s.pc q ≠ .other → kind s q = .live
  forking : ∀ q i, s.pc q = .forking i → kind s i = .embryo ∧ (s.proc i).parent = none
  forked : ∀ q i, s.pc q = .forked i → kind s i = .embryo ∧ (s.proc i).parent = some q
  distinct : ∀ q q' i, Fills s q i → Fills s q' i → q = q'

theorem boot_tree : Tree (boot : Sys ncpu) := by
  have hparent : ∀ i, ((boot : Sys ncpu).proc i).parent = none := by
    intro i
    unfold boot
    dsimp only
    split <;> rfl
  have hkind : ∀ i, i ≠ first → kind (boot : Sys ncpu) i = .unused := by
    intro i hi
    unfold kind boot
    dsimp only
    rw [if_neg hi]
    rfl
  constructor
  · rfl
  · rfl
  · intro i q hq
    rw [hparent] at hq
    cases hq
  · intro i hi
    rw [hparent] at hi
    cases hi
  · exact fun i _ => hparent i
  · intro i hi hk
    rw [hkind i hi] at hk
    exact absurd hk (by decide)
  · exact fun q hq => absurd rfl hq
  · exact nofun
  · exact nofun
  · rintro q q' i (h | h) <;> cases h

/-- The tree depends on stages, parents and the processes in `fork`. -/
theorem Tree.congr (h : Tree s) (hkind : ∀ i, kind s' i = kind s i)
    (hparent : ∀ i, (s'.proc i).parent = (s.proc i).parent) (hinit : s'.initproc = s.initproc)
    (hpc : ∀ q, s'.pc q ≠ .other → kind s q = .live)
    (hforking : ∀ q i, s'.pc q = .forking i ↔ s.pc q = .forking i)
    (hforked : ∀ q i, s'.pc q = .forked i ↔ s.pc q = .forked i) : Tree s' where
  init := by rw [hinit, hkind, h.init]
  root := by rw [hinit, hparent, h.root]
  parent := fun i q => by rw [hparent, hkind]; exact h.parent i q
  proper := fun i => by rw [hparent]; exact h.proper i
  unused := fun i => by rw [hparent, hkind]; exact h.unused i
  child := fun i => by rw [hparent, hkind, hinit]; exact h.child i
  pc := fun q hq => by rw [hkind]; exact hpc q hq
  forking := fun q i => by rw [hforking, hkind, hparent]; exact h.forking q i
  forked := fun q i => by rw [hforked, hkind, hparent]; exact h.forked q i
  distinct := fun q q' i => by
    unfold Fills
    rw [hforking, hforked, hforking, hforked]
    exact h.distinct q q' i

theorem Tree.goto (h : Tree s) (hkind : ∀ i, kind s' i = kind s i)
    (hparent : ∀ i, (s'.proc i).parent = (s.proc i).parent) (hinit : s'.initproc = s.initproc)
    {x : Pc} (hpc : s'.pc = update s.pc p x) (hlive : kind s p = .live)
    (hold : s.pc p = .other ∨ s.pc p = .waiting) (hx : x = .other ∨ x = .waiting) : Tree s' := by
  refine h.congr hkind hparent hinit ?_ ?_ ?_ <;> intro q <;> rw [hpc, update_apply]
  · split
    · rename_i e
      exact fun _ => e ▸ hlive
    · exact h.pc q
  · intro i
    split
    · rename_i e
      rw [e]
      rcases hold with hold | hold <;> rcases hx with rfl | rfl <;> simp [hold]
    · rfl
  · intro i
    split
    · rename_i e
      rw [e]
      rcases hold with hold | hold <;> rcases hx with rfl | rfl <;> simp [hold]
    · rfl

/-- A step of `p` that changes an entry without a live process, which nobody else fills. -/
theorem Tree.change (h : Tree s) {x : Proc} {pc : Pc} (hproc : s'.proc = update s.proc np x)
    (hpc : s'.pc = update s.pc p pc) (hinit : s'.initproc = s.initproc)
    (hlive : kind s p = .live) (hnp : kind s np ≠ .live)
    (hfills : ∀ q, Fills s q np → q = p) (hparent : x.parent = none ∨ x.parent = some p)
    (hunused : x.state.kind = .unused → x.parent = none)
    (hchild : x.state.kind = .live ∨ x.state.kind = .zombie → x.parent ≠ none)
    (hforking : ∀ i, pc = .forking i → i = np ∧ x.state.kind = .embryo ∧ x.parent = none)
    (hforked : ∀ i, pc = .forked i → i = np ∧ x.state.kind = .embryo ∧ x.parent = some p) :
    Tree s' := by
  have hself : s'.proc np = x := by rw [hproc, update_self]
  have hother : ∀ i, i ≠ np → s'.proc i = s.proc i := fun i hi => by
    rw [hproc, update_of_ne hi]
  have hne : ∀ i, kind s i = .live → i ≠ np := by
    rintro i hi rfl
    exact hnp hi
  have hkeep : ∀ i, kind s i = .live → kind s' i = .live := fun i hi => by
    unfold kind
    rw [hother i (hne i hi)]
    exact hi
  have hpc' : ∀ q, q ≠ p → s'.pc q = s.pc q := fun q hq => by rw [hpc, update_of_ne hq]
  have hpcp : s'.pc p = pc := by rw [hpc, update_self]
  constructor
  · rw [hinit]
    exact hkeep _ h.init
  · rw [hinit, hother _ (hne _ h.init), h.root]
  · intro i q hq
    by_cases e : i = np
    · rw [e, hself] at hq
      rcases hparent with hx | hx <;> rw [hx] at hq <;> cases hq
      exact hkeep p hlive
    · rw [hother i e] at hq
      exact hkeep q (h.parent i q hq)
  · intro i hi
    by_cases e : i = np
    · rw [e, hself] at hi
      rcases hparent with hx | hx <;> rw [hx] at hi <;> cases hi
      exact hne p hlive rfl
    · rw [hother i e] at hi
      exact h.proper i hi
  · intro i hi
    unfold kind at hi
    by_cases e : i = np
    · rw [e, hself] at hi ⊢
      exact hunused hi
    · rw [hother i e] at hi ⊢
      exact h.unused i hi
  · intro i hi hk
    unfold kind at hk
    by_cases e : i = np
    · rw [e, hself] at hk ⊢
      exact hchild hk
    · rw [hother i e] at hk ⊢
      exact h.child i (hinit ▸ hi) hk
  · intro q hq
    by_cases e : q = p
    · rw [e]
      exact hkeep p hlive
    · rw [hpc' q e] at hq
      exact hkeep q (h.pc q hq)
  · intro q i hq
    by_cases e : q = p
    · rw [e, hpcp] at hq
      obtain ⟨rfl, hx⟩ := hforking i hq
      unfold kind
      rwa [hself]
    · rw [hpc' q e] at hq
      have hi : i ≠ np := fun ei => e (hfills q (.inl (ei ▸ hq)))
      unfold kind
      rw [hother i hi]
      exact h.forking q i hq
  · intro q i hq
    by_cases e : q = p
    · rw [e, hpcp] at hq
      obtain ⟨rfl, hx⟩ := hforked i hq
      unfold kind
      rwa [hself, e]
    · rw [hpc' q e] at hq
      have hi : i ≠ np := fun ei => e (hfills q (.inr (ei ▸ hq)))
      unfold kind
      rw [hother i hi]
      exact h.forked q i hq
  · -- `p` fills `np` only, and nobody else does
    unfold Fills
    rw [hpc]
    refine unique_update (R := fun i (y : Pc) => y = .forking i ∨ y = .forked i)
      h.distinct ?_
    rintro q i e (hx | hx) hq
    · obtain ⟨rfl, -⟩ := hforking i hx
      exact e (hfills q hq)
    · obtain ⟨rfl, -⟩ := hforked i hx
      exact e (hfills q hq)

theorem Wakes.kind {proc proc' : Fin NPROC → Proc} (h : Wakes proc proc') (i : Fin NPROC) :
    (proc' i).state.kind = (proc i).state.kind := by
  rcases h.state i with e | ⟨e, e'⟩
  · rw [e]
  · rw [e, e']
    rfl

/-- `p` becomes a zombie, and its children those of init. -/
theorem Tree.exit (h : Tree s) (hp : kind s p = .live) (hpc : s.pc p = .other)
    (hne : p ≠ s.initproc) (hkind : ∀ i, kind s' i = if i = p then .zombie else kind s i)
    (hparent : ∀ i, (s'.proc i).parent =
      if (s.proc i).parent = some p then some s.initproc else (s.proc i).parent)
    (hinit : s'.initproc = s.initproc) (hpcs : s'.pc = s.pc) : Tree s' := by
  have hkeep : ∀ i, i ≠ p → kind s' i = kind s i := fun i hi => by rw [hkind, if_neg hi]
  have hpcne : ∀ q, s.pc q ≠ .other → q ≠ p := by
    rintro q hq rfl
    exact hq hpc
  have hembryo : ∀ i, kind s i = .embryo → i ≠ p := by
    rintro i hi rfl
    rw [hp] at hi
    cases hi
  constructor
  · rw [hinit, hkeep _ hne.symm, h.init]
  · rw [hinit, hparent, h.root]
    rfl
  · intro i q hq
    rw [hparent] at hq
    split at hq
    · cases hq
      rw [hkeep _ hne.symm, h.init]
    · rename_i hip
      have hqp : q ≠ p := by
        rintro rfl
        exact hip hq
      rw [hkeep q hqp, h.parent i q hq]
  · intro i hi
    rw [hparent] at hi
    split at hi
    · rename_i hip
      cases hi
      rw [h.root] at hip
      cases hip
    · exact h.proper i hi
  · intro i hi
    rw [hkind] at hi
    split at hi
    · cases hi
    · rw [hparent, h.unused i hi]
      rfl
  · intro i hi hk
    rw [hinit] at hi
    rw [hparent]
    split
    · exact nofun
    · by_cases e : i = p
      · exact h.child i hi (.inl (e ▸ hp))
      · rw [hkeep i e] at hk
        exact h.child i hi hk
  · intro q hq
    rw [hpcs] at hq
    rw [hkeep q (hpcne q hq), h.pc q hq]
  · intro q i hq
    rw [hpcs] at hq
    obtain ⟨hk, hi⟩ := h.forking q i hq
    rw [hkeep i (hembryo i hk), hparent, hi]
    exact ⟨hk, rfl⟩
  · intro q i hq
    rw [hpcs] at hq
    obtain ⟨hk, hi⟩ := h.forked q i hq
    have hqp : q ≠ p := hpcne q (by rw [hq]; exact nofun)
    rw [hkeep i (hembryo i hk), hparent, hi, if_neg fun e => hqp (Option.some.inj e)]
    exact ⟨hk, rfl⟩
  · unfold Fills
    rw [hpcs]
    exact h.distinct

theorem Tree.set (h : Tree s) {x : Proc} (hproc : s'.proc = update s.proc i x)
    (hkind : x.state.kind = kind s i) (hparent : x.parent = (s.proc i).parent)
    (hinit : s'.initproc = s.initproc) (hpc : s'.pc = s.pc) : Tree s' := by
  refine h.congr (fun j => ?_) (fun j => ?_) hinit (fun q => ?_) (fun q j => ?_) fun q j => ?_
  · unfold kind
    rw [hproc]
    by_cases e : j = i
    · rw [e, update_self, hkind, kind]
    · rw [update_of_ne e]
  · rw [hproc]
    by_cases e : j = i
    · rw [e, update_self, hparent]
    · rw [update_of_ne e]
  · rw [hpc]
    exact h.pc q
  · rw [hpc]
  · rw [hpc]

theorem kind_eq {st : Procstate} (h : (s.proc i).state = st) : kind s i = st.kind := by
  rw [kind, h]

theorem Tree.filling (h : Tree s) (hp : Fills s p np) :
    kind s np = .embryo ∧ ∀ q, Fills s q np → q = p := by
  refine ⟨?_, fun q hq => h.distinct q p np hq hp⟩
  rcases hp with hp | hp
  · exact (h.forking p np hp).1
  · exact (h.forked p np hp).1

theorem embryo_of_kind (h : kind s i = .embryo) : (s.proc i).state = .EMBRYO := by
  unfold kind at h
  cases e : (s.proc i).state <;> rw [e] at h <;> first | rfl | cases h

end DuckoUnix.Sched
