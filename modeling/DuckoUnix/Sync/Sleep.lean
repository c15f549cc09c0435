import DuckoUnix.Lib.Run
import Mathlib.Data.Fintype.Basic
import Mathlib.Logic.Function.Basic

/-!
# sleep and wakeup

`sleep(chan, lk)`, `wakeup(chan)` and `kill` of `proc.c`, for one channel and the spin-lock `lk` that
guards what is waited for, by any number of threads (a thread is a process, or an interrupt
handler). A step takes or gives back one lock, or is the code between two such points.

`D` is the data behind `lk`, and `cond p d` says that what process `p` waits for has come true.
-/

namespace DuckoUnix.Sync

open Lib Function

/-- Where a thread is. -/
inductive Pc (N : ℕ)
  /-- it holds neither lock, -/
  | out
  /-- or `lk`, in its critical section; -/
  | crit
  /-- in `sleep`, before `acquire(&ptable.lock)`, -/
  | sleep1
  /-- before `release(lk)`, -/
  | sleep2
  /-- before `p->state = SLEEPING`, -/
  | sleep3
  /-- in `sched`, before the scheduler gives `ptable.lock` back, -/
  | sched
  /-- before the scheduler runs it again, -/
  | asleep
  /-- before `release(&ptable.lock)`, -/
  | back
  /-- and before `acquire(lk)`; -/
  | relock
  /-- in `wakeup`, with or without `lk`, before `acquire(&ptable.lock)`, -/
  | wake1 (held : Bool)
  /-- before `wakeup1(chan)`, -/
  | wake2 (held : Bool)
  /-- and before `release(&ptable.lock)`; -/
  | wake3 (held : Bool)
  /-- in `kill` of process `q`, before `acquire(&ptable.lock)`, -/
  | kill1 (q : Fin N)
  /-- before it wakes the process, -/
  | kill2 (q : Fin N)
  /-- and before `release(&ptable.lock)`. -/
  | kill3
  deriving DecidableEq

/-- The two locks with their holders, and who is `SLEEPING` on the channel. `owes` says that the
holder of `lk` has made a condition true and not woken the channel since; no code reads it. -/
structure State (N : ℕ) (D : Type) where
  data : D
  lk : Option (Fin N)
  ptable : Option (Fin N)
  pc : Fin N → Pc N
  sleeping : Fin N → Bool
  owes : Bool

variable {N : ℕ} {D : Type}

def State.goto (s : State N D) (p : Fin N) (pc : Pc N) : State N D :=
  { s with pc := update s.pc p pc }

def acquirePtable (s : State N D) (p : Fin N) (pc : Pc N) : Option (State N D) :=
  if s.ptable = none then some { s.goto p pc with ptable := some p } else none

def releasePtable (s : State N D) (p : Fin N) (pc : Pc N) : State N D :=
  { s.goto p pc with ptable := none }

def acquireLk (s : State N D) (p : Fin N) : Option (State N D) :=
  if s.lk = none then some { s.goto p .crit with lk := some p } else none

def releaseLk (s : State N D) (p : Fin N) (pc : Pc N) : State N D :=
  { s.goto p pc with lk := none }

/-- The next step of a thread in `sleep`, `wakeup` or `kill`. -/
def advance (s : State N D) (p : Fin N) : Option (State N D) :=
  match s.pc p with
  | .sleep1 => acquirePtable s p .sleep2
  | .sleep2 => some (releaseLk s p .sleep3)
  | .sleep3 => some { s.goto p .sched with sleeping := update s.sleeping p true }
  | .sched => some (releasePtable s p .asleep)
  | .asleep => if s.sleeping p then none else acquirePtable s p .back
  | .back => some (releasePtable s p .relock)
  | .relock => acquireLk s p
  | .wake1 held => acquirePtable s p (.wake2 held)
  | .wake2 held => some { s.goto p (.wake3 held) with
      sleeping := fun _ => false
      owes := if held then false else s.owes }
  | .wake3 held => some (releasePtable s p (if held then .crit else .out))
  | .kill1 q => acquirePtable s p (.kill2 q)
  | .kill2 q => some { s.goto p .kill3 with sleeping := update s.sleeping q false }
  | .kill3 => some (releasePtable s p .out)
  | .out => none
  | .crit => none

inductive Act (N : ℕ) (D : Type)
  /-- `acquire(lk)` -/
  | enter (p : Fin N)
  /-- `release(lk)` -/
  | leave (p : Fin N)
  /-- the holder of `lk` changes the data -/
  | change (p : Fin N) (d : D)
  /-- anybody changes the data -/
  | meddle (d : D)
  | sleep (p : Fin N)
  | wakeup (p : Fin N)
  | kill (p q : Fin N)
  | advance (p : Fin N)

variable (cond : Fin N → D → Bool)

def step (s : State N D) : Act N D → Option (State N D)
  | .enter p => if s.pc p = .out then acquireLk s p else none
  | .leave p => if s.pc p = .crit then some (releaseLk s p .out) else none
  | .change p d =>
    if s.pc p = .crit then
      some { s with
        data := d
        owes := s.owes || decide (∃ q, cond q d = true ∧ cond q s.data = false) }
    else none
  | .meddle d => some { s with data := d }
  | .sleep p => if s.pc p = .crit then some (s.goto p .sleep1) else none
  | .wakeup p =>
    match s.pc p with
    | .crit => some (s.goto p (.wake1 true))
    | .out => some (s.goto p (.wake1 false))
    | _ => none
  | .kill p q => if s.pc p = .out then some (s.goto p (.kill1 q)) else none
  | .advance p => advance s p

/-- What the callers keep to: a condition is made true under `lk`, `lk` is given back, by `release`
or by `sleep`, only after a `wakeup`, and a process goes to sleep on a condition that is false. -/
def Rule (s : State N D) : Act N D → Prop
  | .leave _ => s.owes = false
  | .sleep p => s.owes = false ∧ cond p s.data = false
  | .meddle d => ∀ q, cond q d = true → cond q s.data = true
  | _ => True

def init (d : D) : State N D where
  data := d
  lk := none
  ptable := none
  pc := fun _ => .out
  sleeping := fun _ => false
  owes := false

/-! ## Locks -/

variable {cond} {s s' : State N D} {p q : Fin N} {x y : Pc N}

def Pc.lk : Pc N → Bool
  | .crit | .sleep1 | .sleep2 => true
  | .wake1 held | .wake2 held | .wake3 held => held
  | _ => false

/-- The thread holds `ptable.lock`, or the scheduler does on its behalf. -/
def Pc.ptable : Pc N → Bool
  | .sleep2 | .sleep3 | .sched | .back | .wake2 _ | .wake3 _ | .kill2 _ | .kill3 => true
  | _ => false

/-- The lock has the holder that the places of the threads say. -/
def Owns (f : Pc N → Bool) (holder : Option (Fin N)) (pc : Fin N → Pc N) : Prop :=
  ∀ p, holder = some p ↔ f (pc p) = true

section Owns

variable {f : Pc N → Bool} {holder : Option (Fin N)} {pc : Fin N → Pc N}

theorem Owns.goto (h : Owns f holder pc) (hx : f x = f (pc p)) :
    Owns f holder (update pc p x) := by
  intro q
  rw [update_apply]
  split
  · rename_i e
    rw [hx, e]
    exact h p
  · exact h q

theorem Owns.take (h : Owns f none pc) (hx : f x = true) :
    Owns f (some p) (update pc p x) := by
  intro q
  rw [update_apply]
  split
  · rename_i e
    rw [e]
    exact iff_of_true rfl hx
  · rename_i e
    refine iff_of_false (fun hq => e (Option.some.inj hq).symm) fun hq => ?_
    cases (h q).mpr hq

theorem Owns.give (h : Owns f holder pc) (hp : f (pc p) = true) (hx : f x = false) :
    Owns f none (update pc p x) := by
  intro q
  rw [update_apply]
  refine iff_of_false nofun ?_
  split
  · rw [hx]
    exact nofun
  · rename_i e
    intro hq
    have := (h q).mpr hq
    rw [(h p).mpr hp] at this
    exact e (Option.some.inj this).symm

theorem Owns.unique (h : Owns f holder pc) (hp : f (pc p) = true) (hq : f (pc q) = true) :
    p = q := by
  have := (h p).mpr hp
  rw [(h q).mpr hq] at this
  exact (Option.some.inj this).symm

end Owns

/-! ## No lost wakeup -/

/-- The process has committed to sleep and still holds `lk`. -/
def Pc.settling : Pc N → Bool
  | .sleep1 | .sleep2 => true
  | _ => false

/-- The process has gone to sleep. -/
def Pc.dozing : Pc N → Bool
  | .sched | .asleep => true
  | _ => false

/-- The process sleeps, or is past the point where a wakeup would find it awake. -/
def Committed (s : State N D) (q : Fin N) : Prop := s.sleeping q = true ∨ s.pc q = .sleep3

/-- While a process that is committed to sleep has its condition true, the holder of `lk` is about
to wake the channel. -/
structure Inv (cond : Fin N → D → Bool) (s : State N D) : Prop where
  lk : Owns Pc.lk s.lk s.pc
  ptable : Owns Pc.ptable s.ptable s.pc
  settling : ∀ p, (s.pc p).settling = true → s.owes = false ∧ cond p s.data = false
  dozing : ∀ p, s.sleeping p = true → (s.pc p).dozing = true
  owes : s.owes = true → s.lk ≠ none
  lost : ∀ q, Committed s q → cond q s.data = true → s.owes = true

theorem init_inv (d : D) : Inv cond (init d : State N D) where
  lk := fun p => iff_of_false nofun nofun
  ptable := fun p => iff_of_false nofun nofun
  settling := nofun
  dozing := nofun
  owes := nofun
  lost := fun q hq => by rcases hq with h | h <;> cases h

theorem Inv.awake (h : Inv cond s) (hp : (s.pc p).dozing = false) : ¬ s.sleeping p = true := by
  intro e
  rw [h.dozing p e] at hp
  cases hp

theorem Inv.move (h : Inv cond s) (hdata : s'.data = s.data) (howes : s'.owes = s.owes)
    (hsleep : ∀ q, q ≠ p → s'.sleeping q = true → s.sleeping q = true)
    (hpc : s'.pc = update s.pc p x) (hlk : Owns Pc.lk s'.lk s'.pc)
    (hptable : Owns Pc.ptable s'.ptable s'.pc) (hheld : s.owes = true → s'.lk ≠ none)
    (hsettling : x.settling = true → s.owes = false ∧ cond p s.data = false)
    (hdozing : s'.sleeping p = true → x.dozing = true)
    (hlost : s'.sleeping p = true ∨ x = .sleep3 → cond p s.data = true → s.owes = true) :
    Inv cond s' where
  lk := hlk
  ptable := hptable
  settling := by
    intro q hq
    rw [hpc, update_apply] at hq
    rw [howes, hdata]
    split at hq
    · rename_i e
      rw [e]
      exact hsettling hq
    · exact h.settling q hq
  dozing := by
    intro q hq
    rw [hpc, update_apply]
    split
    · rename_i e
      exact hdozing (e ▸ hq)
    · rename_i e
      exact h.dozing q (hsleep q e hq)
  owes := by
    rw [howes]
    exact hheld
  lost := by
    intro q hq hc
    rw [hdata] at hc
    rw [howes]
    unfold Committed at hq
    by_cases e : q = p
    · rw [e, hpc, update_self] at hq
      exact hlost hq (e ▸ hc)
    · rw [hpc, update_of_ne e] at hq
      exact h.lost q (hq.imp (hsleep q e) id) hc

theorem Inv.goto (h : Inv cond s) (hp : s.pc p = y) (hy : y.dozing = false) (hlk : x.lk = y.lk)
    (hptable : x.ptable = y.ptable)
    (hsettling : x.settling = true → s.owes = false ∧ cond p s.data = false) (hx : x ≠ .sleep3) :
    Inv cond (s.goto p x) := by
  subst hp
  have hawake := h.awake hy
  refine h.move rfl rfl (fun _ _ => id) rfl (h.lk.goto hlk) (h.ptable.goto hptable) h.owes
    hsettling (fun e => absurd e hawake) ?_
  rintro (e | e)
  · exact absurd e hawake
  · exact absurd e hx

theorem Inv.acquirePtable (h : Inv cond s) (hs : acquirePtable s p x = some s') (hp : s.pc p = y)
    (hawake : ¬ s.sleeping p = true) (hlk : x.lk = y.lk) (hx : x.ptable = true)
    (hsettling : x.settling = true → y.settling = true) (hx' : x ≠ .sleep3) : Inv cond s' := by
  subst hp
  simp only [Sync.acquirePtable, Option.ite_none_right_eq_some] at hs
  obtain ⟨hfree, hs⟩ := hs
  cases hs
  have hpt := h.ptable
  rw [hfree] at hpt
  refine h.move rfl rfl (fun _ _ => id) rfl (h.lk.goto hlk) (hpt.take hx) h.owes
    (fun e => h.settling p (hsettling e)) (fun e => absurd e hawake) ?_
  rintro (e | e)
  · exact absurd e hawake
  · exact absurd e hx'

theorem Inv.releasePtable (h : Inv cond s) (hp : s.pc p = y) (hy : y.ptable = true)
    (hlk : x.lk = y.lk) (hx : x.ptable = false) (hsettling : x.settling = false)
    (hdozing : s.sleeping p = true → x.dozing = true) : Inv cond (releasePtable s p x) := by
  subst hp
  refine h.move rfl rfl (fun _ _ => id) rfl (h.lk.goto hlk) (h.ptable.give hy hx) h.owes ?_
    hdozing ?_
  · rw [hsettling]
    exact nofun
  · rintro (e | e) hc
    · exact h.lost p (.inl e) hc
    · rw [e] at hx
      cases hx

theorem Inv.acquireLk (h : Inv cond s) (hs : acquireLk s p = some s') (hp : s.pc p = y)
    (hy : y.dozing = false) (hpt : y.ptable = false) : Inv cond s' := by
  subst hp
  simp only [Sync.acquireLk, Option.ite_none_right_eq_some] at hs
  obtain ⟨hfree, hs⟩ := hs
  cases hs
  have hawake := h.awake hy
  have hlk := h.lk
  rw [hfree] at hlk
  refine h.move rfl rfl (fun _ _ => id) rfl (hlk.take rfl) (h.ptable.goto hpt.symm) (fun _ => nofun)
    nofun (fun e => absurd e hawake) ?_
  rintro (e | e)
  · exact absurd e hawake
  · cases e

theorem Inv.releaseLk (h : Inv cond s) (hp : s.pc p = y) (hy : y.lk = true) (hd : y.dozing = false)
    (howes : s.owes = false) (hlk : x.lk = false) (hptable : x.ptable = y.ptable)
    (hsettling : x.settling = false) (hx : x = .sleep3 → cond p s.data = false) :
    Inv cond (releaseLk s p x) := by
  subst hp
  have hawake := h.awake hd
  refine h.move rfl rfl (fun _ _ => id) rfl (h.lk.give hy hlk) (h.ptable.goto hptable) ?_ ?_
    (fun e => absurd e hawake) ?_
  · rw [howes]
    exact nofun
  · rw [hsettling]
    exact nofun
  · rintro (e | e) hc
    · exact absurd e hawake
    · rw [hx e] at hc
      cases hc

theorem Inv.fallAsleep (h : Inv cond s) (hp : s.pc p = .sleep3) :
    Inv cond { s.goto p .sched with sleeping := update s.sleeping p true } := by
  refine h.move rfl rfl (fun q hq => ?_) rfl (h.lk.goto (by rw [hp]; rfl))
    (h.ptable.goto (by rw [hp]; rfl)) h.owes nofun (fun _ => rfl) fun _ => h.lost p (.inr hp)
  show update s.sleeping p true q = true → _
  rw [update_of_ne hq]
  exact id

/-- `wakeup1(chan)`: it has `ptable.lock`, so nobody is on the way to sleep. -/
theorem Inv.wakeup1 (h : Inv cond s) {held : Bool} (hp : s.pc p = .wake2 held) :
    Inv cond { s.goto p (.wake3 held) with
      sleeping := fun _ => false
      owes := if held then false else s.owes } := by
  have hsub : (if held then false else s.owes) = true → s.owes = true := by
    cases held
    · exact id
    · exact nofun
  refine ⟨h.lk.goto (by rw [hp]; rfl), h.ptable.goto (by rw [hp]; rfl), ?_, nofun,
    fun ho => h.owes (hsub ho), ?_⟩
  · intro q hq
    have hq' : (update s.pc p (.wake3 held) q).settling = true := hq
    rw [update_apply] at hq'
    split at hq'
    · cases hq'
    · obtain ⟨ho, hc⟩ := h.settling q hq'
      refine ⟨?_, hc⟩
      show (if held then false else s.owes) = false
      rw [ho, ite_self]
  · rintro q (hq | hq) _
    · cases hq
    · have hq' : update s.pc p (.wake3 held) q = .sleep3 := hq
      rw [update_apply] at hq'
      split at hq'
      · cases hq'
      · rename_i hqp
        refine absurd (h.ptable.unique (p := q) (q := p) ?_ ?_) hqp
        · rw [hq']; rfl
        · rw [hp]; rfl

theorem Inv.kill (h : Inv cond s) (hp : s.pc p = .kill2 q) :
    Inv cond { s.goto p .kill3 with sleeping := update s.sleeping q false } := by
  have hsub : ∀ r, update s.sleeping q false r = true → s.sleeping r = true := by
    intro r
    rw [update_apply]
    split
    · exact nofun
    · exact id
  have hawake := h.awake (p := p) (by rw [hp]; rfl)
  refine h.move rfl rfl (fun r _ => hsub r) rfl (h.lk.goto (by rw [hp]; rfl))
    (h.ptable.goto (by rw [hp]; rfl)) h.owes nofun (fun e => absurd (hsub p e) hawake) ?_
  rintro (e | e)
  · exact absurd (hsub p e) hawake
  · cases e

theorem Inv.change (h : Inv cond s) (hp : s.pc p = .crit) (d : D) :
    Inv cond { s with
      data := d
      owes := s.owes || decide (∃ q, cond q d = true ∧ cond q s.data = false) } := by
  have hheld : (s.pc p).lk = true := by rw [hp]; rfl
  refine ⟨h.lk, h.ptable, fun q hq => ?_, h.dozing, fun _ => ?_, fun q hq hc => ?_⟩
  · -- who settles holds `lk`, as `p` does
    have hqlk : (s.pc q).lk = true := by
      revert hq
      cases s.pc q <;> simp [Pc.settling, Pc.lk]
    rw [← h.lk.unique hheld hqlk, hp] at hq
    cases hq
  · rw [(h.lk p).mpr hheld]
    exact nofun
  · cases hcq : cond q s.data with
    | true => rw [h.lost q hq hcq, Bool.true_or]
    | false =>
      rw [Bool.or_eq_true, decide_eq_true_iff]
      exact .inr ⟨q, hc, hcq⟩

theorem Inv.meddle (h : Inv cond s) {d : D} (hd : ∀ q, cond q d = true → cond q s.data = true) :
    Inv cond { s with data := d } := by
  refine ⟨h.lk, h.ptable, fun q hq => ?_, h.dozing, h.owes, fun q hq hc => h.lost q hq (hd q hc)⟩
  obtain ⟨ho, hc⟩ := h.settling q hq
  refine ⟨ho, ?_⟩
  cases e : cond q d with
  | false => rfl
  | true =>
    rw [hd q e] at hc
    cases hc

theorem advance_inv (h : Inv cond s) (hs : advance s p = some s') : Inv cond s' := by
  have hawake : (s.pc p).dozing = false → ¬ s.sleeping p = true := h.awake
  unfold advance at hs
  cases hp : s.pc p <;> rw [hp] at hs hawake
  case sleep1 => exact h.acquirePtable hs hp (hawake rfl) rfl rfl (fun _ => rfl) nofun
  case sleep2 =>
    obtain ⟨ho, hc⟩ := h.settling p (by rw [hp]; rfl)
    cases hs
    exact h.releaseLk hp rfl rfl ho rfl rfl rfl fun _ => hc
  case sleep3 =>
    cases hs
    exact h.fallAsleep hp
  case sched =>
    cases hs
    exact h.releasePtable hp rfl rfl rfl rfl fun _ => rfl
  case asleep =>
    dsimp only at hs
    split at hs
    · cases hs
    · rename_i hsl
      exact h.acquirePtable hs hp hsl rfl rfl nofun nofun
  case back =>
    cases hs
    exact h.releasePtable hp rfl rfl rfl rfl fun e => absurd e (hawake rfl)
  case relock => exact h.acquireLk hs hp rfl rfl
  case wake1 held => exact h.acquirePtable hs hp (hawake rfl) rfl rfl nofun nofun
  case wake2 held =>
    cases hs
    exact h.wakeup1 hp
  case wake3 held =>
    cases hs
    refine h.releasePtable hp rfl ?_ ?_ ?_ fun e => absurd e (hawake rfl)
    all_goals cases held <;> rfl
  case kill1 q => exact h.acquirePtable hs hp (hawake rfl) rfl rfl nofun nofun
  case kill2 q =>
    cases hs
    exact h.kill hp
  case kill3 =>
    cases hs
    exact h.releasePtable hp rfl rfl rfl rfl fun e => absurd e (hawake rfl)
  case out => cases hs
  case crit => cases hs

theorem step_inv {a : Act N D} (h : Inv cond s) (hr : Rule cond s a)
    (hs : step cond s a = some s') : Inv cond s' := by
  cases a with
  | enter p =>
    simp only [step, Option.ite_none_right_eq_some] at hs
    exact h.acquireLk hs.2 hs.1 rfl rfl
  | leave p =>
    simp only [step, Option.ite_none_right_eq_some] at hs
    obtain ⟨hp, hs⟩ := hs
    cases hs
    exact h.releaseLk hp rfl rfl hr rfl rfl rfl nofun
  | change p d =>
    simp only [step, Option.ite_none_right_eq_some] at hs
    obtain ⟨hp, hs⟩ := hs
    cases hs
    exact h.change hp d
  | meddle d =>
    cases hs
    exact h.meddle hr
  | sleep p =>
    simp only [step, Option.ite_none_right_eq_some] at hs
    obtain ⟨hp, hs⟩ := hs
    cases hs
    exact h.goto hp rfl rfl rfl (fun _ => hr) nofun
  | wakeup p =>
    simp only [step] at hs
    split at hs
    · rename_i hp
      cases hs
      exact h.goto hp rfl rfl rfl nofun nofun
    · rename_i hp
      cases hs
      exact h.goto hp rfl rfl rfl nofun nofun
    · cases hs
  | kill p q =>
    simp only [step, Option.ite_none_right_eq_some] at hs
    obtain ⟨hp, hs⟩ := hs
    cases hs
    exact h.goto hp rfl rfl rfl nofun nofun
  | advance p => exact advance_inv h hs

/-- With `lk` free, nobody sleeps with its condition true. -/
theorem Inv.no_lost (h : Inv cond s) (hlk : s.lk = none) (hq : s.sleeping q = true) :
    cond q s.data = false := by
  cases e : cond q s.data with
  | false => rfl
  | true => exact absurd hlk (h.owes (h.lost q (.inl hq) e))

end DuckoUnix.Sync
