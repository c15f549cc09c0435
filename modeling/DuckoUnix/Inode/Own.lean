import Mathlib.Algebra.Order.BigOperators.Group.Finset
import Mathlib.Data.Fintype.Card
import DuckoUnix.Lib.Sum
import DuckoUnix.Inode.Logic

/-!
# The inode cache and what processes own

`Own` says how what is seen of the file system goes together with what each of the processes owns.
References of open files are counted by `ext`. Every operation that a process may do keeps this, and
does to what the process owns what `spec` says.
-/

namespace DuckoUnix.Inode

open Lib Fs Finset Function

variable {P : Type} [Fintype P]

/-- The process knows what is on the disk for the inode in place `ip`. -/
def Ghost.Knows (g : Ghost) (ip : Ip) : Prop := ∃ a n, g.held ip = some (.known a n)

/-- What is known if no other process runs. -/
structure Alone.Holds (A : Alone) (v : View) (g : Ghost) : Prop where
  node : A.node = v.node
  others : ∀ ip, 0 < (v.ent ip).ref → (v.ent ip).ref = A.others (v.ent ip).inum + g.count ip
  free : ∀ i, (∀ ip, 0 < (v.ent ip).ref → (v.ent ip).inum ≠ i) → A.others i = 0
  locked : ∀ ip, (v.ent ip).locked = true → g.held ip ≠ none
  spent : A.spent = v.spent
  /-- an inode without links is in the cache, where the last reference to it frees it -/
  unlinked : ∀ i < v.sb.nino, ¬ A.Done i → ∃ ip, 0 < (v.ent ip).ref ∧ (v.ent ip).inum = i ∧
    (v.ent ip).valid = true

structure Own (R : Rules) (ext : Ip → ℕ) (v : View) (G : P → Ghost) : Prop where
  sb : v.sb = R.sb
  ninodes : R.sb.ninodes ≤ R.sb.nino
  ref : ∀ ip, (v.ent ip).ref = ext ip + ∑ p, (G p).count ip
  inum : ∀ p ip i, (ip, i) ∈ (G p).refs → (v.ent ip).inum = i
  lt : ∀ ip, 0 < (v.ent ip).ref → (v.ent ip).inum < R.sb.nino
  unique : ∀ ip jp, 0 < (v.ent ip).ref → 0 < (v.ent jp).ref →
    (v.ent ip).inum = (v.ent jp).inum → ip = jp
  locked : ∀ ip, (v.ent ip).locked = true ↔ ∃ p, (G p).held ip ≠ none
  holder : ∀ p q ip, (G p).held ip ≠ none → (G q).held ip ≠ none → p = q
  owner : ∀ p ip, (G p).held ip ≠ none → ∃ i, (ip, i) ∈ (G p).refs
  known : ∀ p ip a n, (G p).held ip = some (.known a n) → (v.ent ip).valid = true ∧
    (v.ent ip).attr = a ∧ v.nodeOf ip = n ∧ n.attr.type ≠ T_FREE ∧ a.type = n.attr.type
  /-- other copies are the same as on the disk -/
  clean : ∀ ip, 0 < (v.ent ip).ref → (∀ p, ¬ (G p).Knows ip) → (v.ent ip).valid = true →
    (v.ent ip).attr = (v.nodeOf ip).attr ∧ (v.nodeOf ip).attr.type ≠ T_FREE
  good : ∀ i < R.sb.nino, (v.node i).attr.type ≠ T_FREE →
    (∀ p ip, (ip, i) ∈ (G p).refs → ¬ (G p).Knows ip) → R.Good i (v.node i)
  outstanding : v.outstanding = ∑ p, if (G p).tx then 1 else 0
  stale : v.stale = false
  alone : ∀ p A, (G p).alone = some A → A.Holds v (G p)

variable {R : Rules} {ext : Ip → ℕ} {v v' : View} {G : P → Ghost} {p q : P} {ip jp : Ip} {i j : ℕ}
  {g' : Ghost} {e : Entry}

theorem Ghost.held_ne {g : Ghost} {x : Held} (h : g.held ip = some x) : g.held ip ≠ none := by
  rw [h]
  exact Option.some_ne_none _

namespace Own

variable (H : Own R ext v G)
include H

theorem ref_pos (h : (ip, i) ∈ (G p).refs) : 0 < (v.ent ip).ref := by
  have hle : (G p).count ip ≤ ∑ q, (G q).count ip :=
    single_le_sum (f := fun q => (G q).count ip) (fun _ _ => Nat.zero_le _) (mem_univ p)
  have := Ghost.count_pos h
  rw [H.ref]
  omega

theorem not_knows (h : (G p).held ip = some .unknown) (q : P) : ¬ (G q).Knows ip := by
  rintro ⟨a, n, hq⟩
  rw [H.holder q p ip (Ghost.held_ne hq) (Ghost.held_ne h), h] at hq
  cases hq

theorem nodeOf (hi : (ip, i) ∈ (G p).refs) : v.nodeOf ip = v.node i := by
  unfold View.nodeOf
  rw [H.inum p ip i hi]

theorem inum_unique (hi : (ip, i) ∈ (G p).refs) (hj : (ip, j) ∈ (G p).refs) : j = i :=
  (H.inum p ip j hj).symm.trans (H.inum p ip i hi)

/-- A place that a process has locked is in use. -/
theorem held_pos (h : (G p).held ip ≠ none) : 0 < (v.ent ip).ref := by
  obtain ⟨i, hi⟩ := H.owner p ip h
  exact H.ref_pos hi

theorem locked_iff (h : (G p).held ip ≠ none) {x : Held} :
    (v.ent ip).locked = true ↔ some x ≠ none :=
  iff_of_true ((H.locked ip).mpr ⟨p, h⟩) (Option.some_ne_none x)

theorem outstanding_pos (h : (G p).tx = true) : 0 < v.outstanding := by
  have hle : (if (G p).tx then 1 else 0) ≤ ∑ q, if (G q).tx then 1 else 0 :=
    single_le_sum (f := fun q => if (G q).tx then 1 else 0) (fun _ _ => Nat.zero_le _) (mem_univ p)
  rw [← H.outstanding, h] at hle
  exact hle

/-- The inode in a place that is not known to a process is as it should be. -/
theorem good_nodeOf (hr : 0 < (v.ent ip).ref) (hk : ∀ q, ¬ (G q).Knows ip)
    (ht : (v.nodeOf ip).attr.type ≠ T_FREE) : R.Good (v.ent ip).inum (v.nodeOf ip) := by
  refine H.good _ (H.lt ip hr) ht fun q jp hm hkn => hk q ?_
  rwa [← H.unique jp ip (H.ref_pos hm) hr (H.inum q jp _ hm)]

/-- With few inodes in use some place is empty. -/
theorem exists_empty {A : Alone} (hA : (G p).alone = some A)
    (hroom : (R.inUse (G p) A).card < NINODE) : ∃ ip, (v.ent ip).ref = 0 := by
  by_contra hall
  have hpos : ∀ ip, 0 < (v.ent ip).ref := fun ip => Nat.pos_of_ne_zero fun h => hall ⟨ip, h⟩
  have hmaps : ∀ ip ∈ (univ : Finset Ip), (v.ent ip).inum ∈ R.inUse (G p) A := by
    intro ip _
    refine mem_filter.mpr ⟨mem_range.mpr (H.lt ip (hpos ip)), ?_⟩
    by_cases hc : 0 < (G p).count ip
    · obtain ⟨⟨jp, j⟩, hx, rfl⟩ := Multiset.countP_pos.mp hc
      exact Or.inr (Multiset.mem_map.mpr ⟨(jp, j), hx, (H.inum p jp j hx).symm⟩)
    · have := (H.alone p A hA).others ip (hpos ip)
      have := hpos ip
      exact Or.inl (by omega)
  have hinj : Set.InjOn (fun ip => (v.ent ip).inum) (univ : Finset Ip) :=
    fun ip _ jp _ e => H.unique ip jp (hpos ip) (hpos jp) e
  have hcard := card_le_card_of_injOn _ hmaps hinj
  rw [card_univ, Fintype.card_fin] at hcard
  omega

theorem held_none (hl : (v.ent ip).locked = false) (q : P) : (G q).held ip = none := by
  by_contra h
  have := (H.locked ip).mpr ⟨q, h⟩
  rw [hl] at this
  cases this

theorem others_none (h : (G p).held ip ≠ none) (q : P) (hq : q ≠ p) : (G q).held ip = none := by
  by_contra h'
  exact hq (H.holder q p ip h' h)

theorem live {a : Attr} {n : Node} (h : (G p).held ip = some (.known a n)) :
    v.Live ip ∧ (v.ent ip).attr = a ∧ v.nodeOf ip = n ∧ n.attr.type ≠ T_FREE ∧
      a.type = n.attr.type := by
  obtain ⟨hval, hrest⟩ := H.known p ip a n h
  exact ⟨⟨H.held_pos (Ghost.held_ne h), hval⟩, hrest⟩

end Own

variable [DecidableEq P]

/-! ## Steps that leave the cache alone -/

/-- The cache stays as it is, and so do allocated inodes; free inodes may be allocated. -/
theorem Own.frame (H : Own R ext v G) (hown : ∀ q, q ≠ p → (G q).alone = none)
    (hsb : v'.sb = v.sb) (hent : v'.ent = v.ent) (hstale : v'.stale = v.stale)
    (hrefs : g'.refs = (G p).refs) (hheld : g'.held = (G p).held)
    (hnode : ∀ i, (v.node i).attr.type ≠ T_FREE → v'.node i = v.node i)
    (hgood : ∀ i, v'.node i = v.node i ∨ R.Good i (v'.node i))
    (htx : v'.outstanding + (if (G p).tx then 1 else 0) = v.outstanding + if g'.tx then 1 else 0)
    (halone : ∀ A, g'.alone = some A → A.Holds v' g') :
    Own R ext v' (update G p g') := by
  have hp : update G p g' p = g' := update_self _ _ _
  have hq : ∀ q, q ≠ p → update G p g' q = G q := fun q h => update_of_ne h _ _
  have hrefs' : ∀ q, (update G p g' q).refs = (G q).refs := by
    intro q
    by_cases h : q = p
    · rw [h, hp, hrefs]
    · rw [hq q h]
  have hheld' : ∀ q, (update G p g' q).held = (G q).held := by
    intro q
    by_cases h : q = p
    · rw [h, hp, hheld]
    · rw [hq q h]
  have hnodeOf : ∀ ip, (v.nodeOf ip).attr.type ≠ T_FREE → v'.nodeOf ip = v.nodeOf ip := by
    intro ip ht
    unfold View.nodeOf
    rw [hent]
    exact hnode _ ht
  refine ⟨hsb.trans H.sb, H.ninodes, ?_, ?_, ?_, ?_, ?_, ?_, ?_, fun q ip a n h => ?_,
    fun ip hr hk hv => ?_, fun i hi ht hk => ?_, ?_, hstale.trans H.stale, fun q A hA => ?_⟩
  · unfold Ghost.count
    simp only [hrefs', hent]
    exact H.ref
  · simp only [hrefs', hent]
    exact H.inum
  · rw [hent]
    exact H.lt
  · rw [hent]
    exact H.unique
  · simp only [hheld', hent]
    exact H.locked
  · simp only [hheld']
    exact H.holder
  · simp only [hheld', hrefs']
    exact H.owner
  · rw [hheld'] at h
    obtain ⟨h₁, h₂, h₃, h₄, h₅⟩ := H.known q ip a n h
    rw [hent]
    refine ⟨h₁, h₂, (hnodeOf ip ?_).trans h₃, h₄, h₅⟩
    rw [h₃]
    exact h₄
  · unfold Ghost.Knows at hk
    simp only [hheld'] at hk
    rw [hent] at hr hv ⊢
    obtain ⟨h₁, h₂⟩ := H.clean ip hr hk hv
    rw [hnodeOf ip h₂]
    exact ⟨h₁, h₂⟩
  · rcases hgood i with e | h
    · rw [e] at ht ⊢
      refine H.good i hi ht fun q ip hm hkn => hk q ip (by rw [hrefs']; exact hm) ?_
      unfold Ghost.Knows
      rw [hheld']
      exact hkn
    · exact h
  · have hsum := sum_update_add (fun g : Ghost => if g.tx then 1 else 0) G p g'
    rw [← H.outstanding] at hsum
    exact Nat.add_right_cancel (htx.trans hsum.symm)
  · by_cases h : q = p
    · subst h
      rw [hp] at hA ⊢
      exact halone A hA
    · rw [hq q h, hown q h] at hA
      cases hA

/-! ## One place of the cache -/

section Place

variable (H : Own R ext v G) (hown : ∀ q, q ≠ p → (G q).alone = none)
include H hown

/-- The references of a process change in one place. -/
theorem Own.setRefs (hg : g' = { G p with refs := g'.refs })
    (hmem : ∀ jp j, jp ≠ ip → ((jp, j) ∈ g'.refs ↔ (jp, j) ∈ (G p).refs))
    (hcount : ∀ jp, jp ≠ ip → g'.count jp = (G p).count jp)
    (hheld : (G p).held ip ≠ none → ∃ i, (ip, i) ∈ g'.refs)
    (hlocked : e.locked = (v.ent ip).locked)
    (href : e.ref + (G p).count ip = (v.ent ip).ref + g'.count ip)
    (hself : ∀ i, (ip, i) ∈ g'.refs → e.inum = i)
    (hkeep : 0 < (v.ent ip).ref →
      e.inum = (v.ent ip).inum ∧ e.valid = (v.ent ip).valid ∧ e.attr = (v.ent ip).attr)
    (hnew : (v.ent ip).ref = 0 → 0 < e.ref → e.inum < R.sb.nino ∧ e.valid = false ∧
      ∀ jp, 0 < (v.ent jp).ref → (v.ent jp).inum ≠ e.inum)
    (hlast : 0 < (v.ent ip).ref → e.ref = 0 → ∀ A, (G p).alone = some A →
      A.Done (v.ent ip).inum) :
    Own R ext (v.put ip e) (update G p g') := by
  have hp : update G p g' p = g' := update_self _ _ _
  have hq : ∀ q, q ≠ p → update G p g' q = G q := fun q h => update_of_ne h _ _
  have hheld' : ∀ q, (update G p g' q).held = (G q).held := by
    intro q
    by_cases h : q = p
    · rw [h, hp, hg]
    · rw [hq q h]
  have hknows : ∀ q jp, (update G p g' q).Knows jp ↔ (G q).Knows jp := by
    intro q jp
    unfold Ghost.Knows
    rw [hheld']
  have hself' : (v.put ip e).ent ip = e := update_self _ _ _
  have hother : ∀ jp, jp ≠ ip → (v.put ip e).ent jp = v.ent jp :=
    fun jp h => update_of_ne h _ _
  have hnode : ∀ jp, 0 < (v.ent jp).ref → (v.put ip e).nodeOf jp = v.nodeOf jp := by
    intro jp h
    unfold View.nodeOf
    by_cases hj : jp = ip
    · rw [hj, hself', (hkeep (hj ▸ h)).1]
      rfl
    · rw [hother jp hj]
      rfl
  have hzero : (v.ent ip).ref = 0 → (G p).count ip = 0 := by
    intro h
    rw [H.ref] at h
    have hle : (G p).count ip ≤ ∑ q, (G q).count ip :=
      single_le_sum (f := fun q => (G q).count ip) (fun _ _ => Nat.zero_le _) (mem_univ p)
    omega
  refine ⟨H.sb, H.ninodes, fun jp => ?_, fun q jp i hi => ?_, fun jp hr => ?_, fun jp kp hr hr' hi => ?_,
    fun jp => ?_, fun q q' jp h h' => ?_, fun q jp h => ?_, fun q jp a n h => ?_,
    fun jp hr hk hv => ?_, fun i hi ht hk => ?_, ?_, H.stale, fun q A hA => ?_⟩
  · by_cases hj : jp = ip
    · have hsum := sum_update_add (fun g : Ghost => g.count ip) G p g'
      have := H.ref ip
      rw [hj, hself']
      omega
    · rw [hother jp hj, H.ref jp, sum_update_eq (f := fun g : Ghost => g.count jp) (hcount jp hj)]
  · by_cases hj : jp = ip
    · subst hj
      rw [hself']
      by_cases h : q = p
      · rw [h, hp] at hi
        exact hself i hi
      · rw [hq q h] at hi
        rw [(hkeep (H.ref_pos hi)).1, H.inum q jp i hi]
    · rw [hother jp hj]
      by_cases h : q = p
      · rw [h, hp, hmem jp i hj] at hi
        exact H.inum p jp i hi
      · rw [hq q h] at hi
        exact H.inum q jp i hi
  · by_cases hj : jp = ip
    · rw [hj, hself'] at hr ⊢
      by_cases h0 : (v.ent ip).ref = 0
      · exact (hnew h0 hr).1
      · rw [(hkeep (Nat.pos_of_ne_zero h0)).1]
        exact H.lt ip (Nat.pos_of_ne_zero h0)
    · rw [hother jp hj] at hr ⊢
      exact H.lt jp hr
  · -- the inode of the place that changed is not in another one
    have hne : 0 < e.ref → ∀ jp, jp ≠ ip → 0 < (v.ent jp).ref → (v.ent jp).inum ≠ e.inum := by
      intro he jp hj hrj
      by_cases h0 : (v.ent ip).ref = 0
      · exact (hnew h0 he).2.2 jp hrj
      · rw [(hkeep (Nat.pos_of_ne_zero h0)).1]
        exact fun h => hj (H.unique jp ip hrj (Nat.pos_of_ne_zero h0) h)
    refine unique_update (R := fun i (e : Entry) => 0 < e.ref ∧ e.inum = i) ?_ ?_ jp kp _
      ⟨hr, hi⟩ ⟨hr', rfl⟩
    · exact fun jp kp i h h' => H.unique jp kp h.1 h'.1 (h.2.trans h'.2.symm)
    · exact fun jp i hj he h => hne he.1 jp hj h.1 (h.2.trans he.2.symm)
  · simp only [hheld']
    by_cases hj : jp = ip
    · rw [hj, hself', hlocked]
      exact H.locked ip
    · rw [hother jp hj]
      exact H.locked jp
  · rw [hheld'] at h h'
    exact H.holder q q' jp h h'
  · rw [hheld'] at h
    by_cases hqp : q = p
    · subst hqp
      rw [hp]
      by_cases hj : jp = ip
      · subst hj
        exact hheld h
      · obtain ⟨i, hi⟩ := H.owner q jp h
        exact ⟨i, (hmem jp i hj).mpr hi⟩
    · rw [hq q hqp]
      exact H.owner q jp h
  · rw [hheld'] at h
    have hr := H.held_pos (Ghost.held_ne h)
    rw [hnode jp hr]
    by_cases hj : jp = ip
    · subst hj
      obtain ⟨-, hvalid, hattr⟩ := hkeep hr
      rw [hself', hvalid, hattr]
      exact H.known q jp a n h
    · rw [hother jp hj]
      exact H.known q jp a n h
  · simp only [hknows] at hk
    by_cases hj : jp = ip
    · subst hj
      rw [hself'] at hr hv ⊢
      by_cases h0 : (v.ent jp).ref = 0
      · rw [(hnew h0 hr).2.1] at hv
        cases hv
      · have hr' := Nat.pos_of_ne_zero h0
        obtain ⟨-, hvalid, hattr⟩ := hkeep hr'
        rw [hvalid] at hv
        rw [hattr, hnode jp hr']
        exact H.clean jp hr' hk hv
    · rw [hother jp hj] at hr hv ⊢
      rw [hnode jp hr]
      exact H.clean jp hr hk hv
  · refine H.good i hi ht fun q jp hm hkn => ?_
    have hsome : (G q).held jp ≠ none := by
      obtain ⟨a, n, h⟩ := hkn
      exact Ghost.held_ne h
    by_cases hqp : q = p
    · subst hqp
      by_cases hj : jp = ip
      · subst hj
        obtain ⟨i', hi'⟩ := hheld hsome
        have hii : i' = i := by
          rw [← hself i' hi', (hkeep (H.ref_pos hm)).1, H.inum q jp i hm]
        subst hii
        exact hk q jp (by rw [hp]; exact hi') ((hknows q jp).mpr hkn)
      · exact hk q jp (by rw [hp]; exact (hmem jp i hj).mpr hm) ((hknows q jp).mpr hkn)
    · exact hk q jp (by rw [hq q hqp]; exact hm) ((hknows q jp).mpr hkn)
  · have htx : (if g'.tx then 1 else 0) = if (G p).tx then 1 else 0 := by rw [hg]
    rw [sum_update_eq (f := fun g : Ghost => if g.tx then 1 else 0) htx]
    exact H.outstanding
  · have hqp : q = p := by
      by_contra h
      rw [hq q h, hown q h] at hA
      cases hA
    subst hqp
    rw [hp] at hA ⊢
    have hA' : (G q).alone = some A := by rw [← hA, hg]
    have hal := H.alone q A hA'
    refine ⟨hal.node, fun jp hr => ?_, fun i hi => ?_, fun jp hl => ?_, hal.spent, fun i hlt hi => ?_⟩
    · by_cases hj : jp = ip
      · subst hj
        rw [hself'] at hr ⊢
        by_cases h0 : (v.ent jp).ref = 0
        · have := hzero h0
          rw [hal.free e.inum (hnew h0 hr).2.2]
          omega
        · have := hal.others jp (Nat.pos_of_ne_zero h0)
          rw [(hkeep (Nat.pos_of_ne_zero h0)).1]
          omega
      · rw [hother jp hj] at hr ⊢
        rw [hcount jp hj]
        exact hal.others jp hr
    · by_cases hin : 0 < (v.ent ip).ref ∧ (v.ent ip).inum = i
      · -- the last reference was dropped
        have h0 : e.ref = 0 := by
          by_contra h
          refine hi ip (by rw [hself']; exact Nat.pos_of_ne_zero h) ?_
          rw [hself', (hkeep hin.1).1, hin.2]
        have := hal.others ip hin.1
        rw [hin.2] at this
        omega
      · refine hal.free i fun jp hr => ?_
        by_cases hj : jp = ip
        · subst hj
          exact fun h => hin ⟨hr, h⟩
        · have := hi jp (by rw [hother jp hj]; exact hr)
          rwa [hother jp hj] at this
    · rw [hg]
      by_cases hj : jp = ip
      · rw [hj, hself', hlocked] at hl
        rw [hj]
        exact hal.locked ip hl
      · rw [hother jp hj] at hl
        exact hal.locked jp hl
    · obtain ⟨jp, hr, rfl, hval⟩ := hal.unlinked i hlt hi
      by_cases hj : jp = ip
      · subst hj
        refine ⟨jp, ?_⟩
        rw [hself']
        obtain ⟨hinum, hvalid, -⟩ := hkeep hr
        refine ⟨Nat.pos_of_ne_zero fun h0 => hi (hlast hr h0 A hA'), hinum, hvalid.trans hval⟩
      · refine ⟨jp, ?_⟩
        rw [hother jp hj]
        exact ⟨hr, rfl, hval⟩

/-- What a process knows of one place changes, and the inode in this place. -/
theorem Own.setHeld {h' : Option Held} {n' : Node} (hi : (ip, i) ∈ (G p).refs)
    (hother : ∀ q, q ≠ p → (G q).held ip = none)
    (hg : g' = ({ G p with held := update (G p).held ip h' } : Ghost).store i n')
    (hv' : v' = ((v.store i n').put ip e))
    (href : e.ref = (v.ent ip).ref) (hinum : e.inum = (v.ent ip).inum)
    (hlocked : e.locked = true ↔ h' ≠ none)
    (hknown : ∀ a n, h' = some (.known a n) → e.valid = true ∧ e.attr = a ∧ n' = n ∧
      n.attr.type ≠ T_FREE ∧ a.type = n.attr.type)
    (hclean : (∀ a n, h' ≠ some (.known a n)) →
      (e.valid = true → e.attr = n'.attr ∧ n'.attr.type ≠ T_FREE) ∧
      (n'.attr.type ≠ T_FREE → R.Good i n'))
    (hvalid : e.valid = true ∨ n'.attr.type = T_FREE ∨
      e.valid = (v.ent ip).valid ∧ n' = v.node i) :
    Own R ext v' (update G p g') := by
  have hp : update G p g' p = g' := update_self _ _ _
  have hq : ∀ q, q ≠ p → update G p g' q = G q := fun q h => update_of_ne h _ _
  have hrefs : ∀ q, (update G p g' q).refs = (G q).refs := by
    intro q
    by_cases h : q = p
    · rw [h, hp, hg]
      rfl
    · rw [hq q h]
  have hcount : ∀ q jp, (update G p g' q).count jp = (G q).count jp := by
    intro q jp
    unfold Ghost.count
    rw [hrefs]
  have hheld_self : ∀ q, (update G p g' q).held ip = if q = p then h' else none := by
    intro q
    by_cases h : q = p
    · rw [h, hp, if_pos rfl, hg]
      exact update_self _ _ _
    · rw [hq q h, if_neg h, hother q h]
  have hheld_other : ∀ q jp, jp ≠ ip → (update G p g' q).held jp = (G q).held jp := by
    intro q jp hj
    by_cases h : q = p
    · rw [h, hp, hg]
      exact update_of_ne hj _ _
    · rw [hq q h]
  have hsb : v'.sb = v.sb := by rw [hv']; rfl
  have hself : v'.ent ip = e := by rw [hv']; exact update_self _ _ _
  have hent : ∀ jp, jp ≠ ip → v'.ent jp = v.ent jp := by
    intro jp h
    rw [hv']
    exact update_of_ne h _ _
  have hi' : (v.ent ip).inum = i := H.inum p ip i hi
  have hpos := H.ref_pos hi
  have hnode_i : v'.node i = n' := by rw [hv']; exact update_self _ _ _
  have hnode_ne : ∀ j, j ≠ i → v'.node j = v.node j := by
    intro j h
    rw [hv']
    exact update_of_ne h _ _
  have hnodeOf : ∀ jp, jp ≠ ip → 0 < (v.ent jp).ref → v'.nodeOf jp = v.nodeOf jp := by
    intro jp hj hr
    unfold View.nodeOf
    rw [hent jp hj, hnode_ne]
    intro h
    exact hj (H.unique jp ip hr hpos (h.trans hi'.symm))
  have hnodeOf_self : v'.nodeOf ip = n' := by
    unfold View.nodeOf
    rw [hself, hinum, hi', hnode_i]
  have hrefv : ∀ jp, (v'.ent jp).ref = (v.ent jp).ref ∧ (v'.ent jp).inum = (v.ent jp).inum := by
    intro jp
    by_cases hj : jp = ip
    · rw [hj, hself]
      exact ⟨href, hinum⟩
    · rw [hent jp hj]
      exact ⟨rfl, rfl⟩
  refine ⟨hsb.trans H.sb, H.ninodes, fun jp => ?_, fun q jp j hj => ?_, fun jp hr => ?_,
    fun jp kp hr hr' hij => ?_, fun jp => ?_, fun q q' jp h h₂ => ?_, fun q jp h => ?_,
    fun q jp a n h => ?_, fun jp hr hk hval => ?_, fun j hj ht hk => ?_, ?_, ?_, fun q A hA => ?_⟩
  · simp only [hcount]
    rw [(hrefv jp).1, H.ref jp]
  · rw [hrefs] at hj
    rw [(hrefv jp).2]
    exact H.inum q jp j hj
  · rw [(hrefv jp).1] at hr
    rw [(hrefv jp).2]
    exact H.lt jp hr
  · rw [(hrefv _).1] at hr hr'
    rw [(hrefv _).2, (hrefv _).2] at hij
    exact H.unique jp kp hr hr' hij
  · by_cases hj : jp = ip
    · subst hj
      rw [hself, hlocked]
      refine ⟨fun h => ⟨p, ?_⟩, ?_⟩
      · rw [hheld_self, if_pos rfl]
        exact h
      · rintro ⟨q, h⟩
        rw [hheld_self] at h
        split_ifs at h
        · exact h
        · exact absurd rfl h
    · rw [hent jp hj, H.locked jp]
      simp only [hheld_other _ jp hj]
  · by_cases hj : jp = ip
    · subst hj
      have hme : ∀ q, (update G p g' q).held jp ≠ none → q = p := by
        intro q h
        by_contra hne
        rw [hheld_self, if_neg hne] at h
        exact h rfl
      rw [hme q h, hme q' h₂]
    · rw [hheld_other _ jp hj] at h h₂
      exact H.holder q q' jp h h₂
  · rw [hrefs]
    by_cases hj : jp = ip
    · subst hj
      rw [hheld_self] at h
      split_ifs at h with hqp
      · exact ⟨i, hqp ▸ hi⟩
      · exact absurd rfl h
    · rw [hheld_other _ jp hj] at h
      exact H.owner q jp h
  · by_cases hj : jp = ip
    · subst hj
      rw [hheld_self] at h
      split_ifs at h
      obtain ⟨h₁, h₂, h₃, h₄⟩ := hknown a n h
      rw [hself, hnodeOf_self]
      exact ⟨h₁, h₂, h₃, h₄⟩
    · rw [hheld_other _ jp hj] at h
      rw [hent jp hj, hnodeOf jp hj (H.held_pos (Ghost.held_ne h))]
      exact H.known q jp a n h
  · by_cases hj : jp = ip
    · subst hj
      rw [hself] at hval ⊢
      rw [hnodeOf_self]
      refine (hclean fun a n h => hk p ⟨a, n, ?_⟩).1 hval
      rw [hheld_self, if_pos rfl, h]
    · rw [hent jp hj] at hr hval ⊢
      rw [hnodeOf jp hj hr]
      refine H.clean jp hr (fun q hkn => hk q ?_) hval
      unfold Ghost.Knows
      rwa [hheld_other q jp hj]
  · by_cases hji : j = i
    · subst hji
      rw [hnode_i] at ht ⊢
      refine (hclean fun a n h => ?_).2 ht
      refine hk p ip (by rw [hrefs]; exact hi) ⟨a, n, ?_⟩
      rw [hheld_self, if_pos rfl, h]
    · rw [hnode_ne j hji] at ht ⊢
      refine H.good j hj ht fun q jp hm hkn => ?_
      have hj' : jp ≠ ip := by
        intro h
        subst h
        exact hji ((H.inum q jp j hm).symm.trans hi')
      refine hk q jp (by rw [hrefs]; exact hm) ?_
      unfold Ghost.Knows
      rwa [hheld_other q jp hj']
  · have htx : (if g'.tx then 1 else 0) = if (G p).tx then 1 else 0 := by rw [hg]; rfl
    rw [sum_update_eq (f := fun g : Ghost => if g.tx then 1 else 0) htx, ← H.outstanding, hv']
    rfl
  · rw [hv']
    exact H.stale
  · have hqp : q = p := by
      by_contra h
      rw [hq q h, hown q h] at hA
      cases hA
    subst hqp
    rw [hp, hg] at hA
    obtain ⟨A₀, hA₀, rfl⟩ := Option.map_eq_some_iff.mp hA
    have hal := H.alone q A₀ hA₀
    refine ⟨?_, fun jp hr => ?_, fun j hj => hal.free j fun jp hr => ?_, fun jp hl => ?_,
      by rw [hv']; exact hal.spent, fun j hlt hj => ?_⟩
    · rw [hv']
      show update A₀.node i n' = update v.node i n'
      rw [hal.node]
    · rw [(hrefv jp).1] at hr
      rw [(hrefv jp).1, (hrefv jp).2, hcount]
      exact hal.others jp hr
    · have := hj jp (by rw [(hrefv jp).1]; exact hr)
      rwa [(hrefv jp).2] at this
    · by_cases hj : jp = ip
      · subst hj
        rw [hself] at hl
        rw [hheld_self, if_pos rfl]
        exact hlocked.mp hl
      · rw [hent jp hj] at hl
        rw [hheld_other q jp hj]
        exact hal.locked jp hl
    · by_cases hji : j = i
      · subst hji
        refine ⟨ip, ?_⟩
        rw [hself, href, hinum]
        refine ⟨hpos, hi', ?_⟩
        rcases hvalid with h | h | ⟨h, hn⟩
        · exact h
        · refine absurd (Or.inr (Or.inl ?_)) hj
          show (update A₀.node j n' j).attr.type = _
          rw [update_self]
          exact h
        · have hdone : ¬ A₀.Done j := by
            intro hd
            refine hj (hd.imp_right fun hd => ?_)
            show (update A₀.node j n' j).attr.type = _ ∨
              (update A₀.node j n' j).attr.nlink ≠ _
            rw [update_self, hn, ← hal.node]
            exact hd
          obtain ⟨jp, hr, hij, hval⟩ := hal.unlinked j (hsb ▸ hlt) hdone
          rw [h, ← H.unique jp ip hr hpos (hij.trans hi'.symm)]
          exact hval
      · have hdone : ¬ A₀.Done j := by
          intro hd
          refine hj (hd.imp_right fun hd => ?_)
          show (update A₀.node i n' j).attr.type = _ ∨
            (update A₀.node i n' j).attr.nlink ≠ _
          rw [update_of_ne hji]
          exact hd
        obtain ⟨jp, hr, hij, hval⟩ := hal.unlinked j (hsb ▸ hlt) hdone
        have hne : jp ≠ ip := fun e => hji (hij.symm.trans (e ▸ hi'))
        refine ⟨jp, ?_⟩
        rw [hent jp hne]
        exact ⟨hr, hij, hval⟩

/-- What a process knows of one place changes, but not what is on the disk. -/
theorem Own.setLock {h' : Option Held} (hi : (ip, i) ∈ (G p).refs)
    (hother : ∀ q, q ≠ p → (G q).held ip = none)
    (hg : g' = { G p with held := update (G p).held ip h' })
    (href : e.ref = (v.ent ip).ref) (hinum : e.inum = (v.ent ip).inum)
    (hlocked : e.locked = true ↔ h' ≠ none)
    (hknown : ∀ a n, h' = some (.known a n) → e.valid = true ∧ e.attr = a ∧ v.node i = n ∧
      n.attr.type ≠ T_FREE ∧ a.type = n.attr.type)
    (hclean : (∀ a n, h' ≠ some (.known a n)) →
      (e.valid = true → e.attr = (v.node i).attr ∧ (v.node i).attr.type ≠ T_FREE) ∧
      ((v.node i).attr.type ≠ T_FREE → R.Good i (v.node i)))
    (hvalid : e.valid = true ∨ e.valid = (v.ent ip).valid) :
    Own R ext (v.put ip e) (update G p g') := by
  refine H.setHeld hown hi hother ?_ ?_ href hinum hlocked hknown hclean
    (hvalid.imp_right fun h => Or.inr ⟨h, rfl⟩)
  · rw [hg]
    refine (Ghost.store_self fun A hA => ?_).symm
    rw [(H.alone p A hA).node]
  · unfold View.store
    rw [update_eq_self]

end Place

end DuckoUnix.Inode
