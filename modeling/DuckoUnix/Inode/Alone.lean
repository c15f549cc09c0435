import Mathlib.Data.Fintype.BigOperators
import Mathlib.Data.Fintype.Option
import DuckoUnix.Inode.Dirs
import DuckoUnix.Inode.Ops
import DuckoUnix.Inode.Refine

/-!
# A process that nobody interrupts

If the other processes do not run, what `Thread.wp` says of the code of a process holds of the store:
the code returns as it says, or it panics as the rules allow, or it runs out of blocks.
-/

namespace DuckoUnix.Inode

open Lib Fs Finset Function

variable {α : Type} {R : Rules} {v v' : View} {g g' : Ghost} {ip : Ip} {i : ℕ} {s : Store}

/-! ## Threads -/

theorem Op.alone_ne_none {o : Op α} {b : α} (hpre : o.pre R g) (hpost : o.post R g b g')
    (h : g.alone ≠ none) : g'.alone ≠ none := by
  have hmap : ∀ f : Alone → Alone, g.alone.map f ≠ none := fun f hf => h (Option.map_eq_none_iff.mp hf)
  cases o with
  | begin_op | end_op | releasesleep ip =>
    rw [show g' = _ from hpost]
    exact h
  | iget i =>
    rw [hpost.2]
    exact h
  | idup ip =>
    obtain ⟨i, hi⟩ := hpre
    rw [hpost i hi]
    exact h
  | acquiresleep ip | holdingsleep ip =>
    rw [hpost.2]
    exact h
  | unref ip =>
    obtain ⟨⟨i, hi, -⟩, -⟩ := hpre
    rw [hpost i hi]
    exact h
  | look ip =>
    obtain ⟨i, hi⟩ := hpre
    obtain ⟨-, ⟨-, rfl⟩ | ⟨n, -, -, -, -, rfl⟩⟩ := hpost i hi
    · exact h
    · exact h
  | size ip =>
    obtain ⟨a, n, hk⟩ := hpre
    rw [(hpost a n hk).2]
    exact h
  | setAttr ip f =>
    obtain ⟨a, n, hk, -⟩ := hpre
    rw [hpost a n hk]
    exact h
  | iupdate ip =>
    obtain ⟨-, ⟨i, hi⟩, a, n, hk⟩ := hpre
    rw [hpost i a n hi hk]
    exact hmap _
  | load ip =>
    obtain ⟨⟨i, hi⟩, hh, hk, -⟩ := hpre
    cases hh with
    | known a n =>
      rw [hpost.1 a n hk]
      exact h
    | unknown =>
      obtain ⟨n, -, rfl⟩ := hpost.2 hk i hi
      exact h
  | ifree ip =>
    obtain ⟨-, ⟨i, hi⟩, a, n, hk⟩ := hpre
    rw [hpost i a n hi hk]
    exact hmap _
  | claim type =>
    rw [hpost.2.2.2]
    exact fun hf => hmap _ (Option.map_eq_none_iff.mp hf)
  | readFile ip off n =>
    obtain ⟨a, n, hk⟩ := hpre
    rw [(hpost a n hk).2]
    exact h
  | writeFile ip src off =>
    obtain ⟨-, ⟨i, hi⟩, a, n, hk⟩ := hpre
    have hw := hpost i a n hi hk
    split_ifs at hw
    · rw [hw.2]
      exact h
    · rw [hw.2]
      exact fun hf => hmap _ (Option.map_eq_none_iff.mp hf)
  | panic e => exact hpost.elim

theorem wp_alone {t : T α} {Q : α → Ghost → Prop} (hal : g.alone ≠ none) (h : t.wp R.spec Q g) :
    t.wp R.spec (fun a g' => Q a g' ∧ g'.alone ≠ none) g := by
  induction t generalizing g with
  | ret a => exact ⟨h, hal⟩
  | ask o k ih =>
    exact ⟨h.1, fun b g' hpost => ih b (Op.alone_ne_none h.1 hpost hal) (h.2 b g' hpost)⟩

section Threads

variable {P : Type} [Fintype P] [DecidableEq P] {ext : Ip → ℕ} {G : P → Ghost} {p : P}

/-- A panic that the rules allow. -/
def Rules.Allows (R : Rules) (f : Fault) : Prop := ∃ e, f = .panic e ∧ R.Panics e

/-- A thread that runs alone keeps what is owned. -/
theorem Own.runs (t : T α) {Q : α → Ghost → Prop} (H : Own R ext v G)
    (hown : ∀ q, q ≠ p → (G q).alone = none) (hal : (G p).alone ≠ none)
    (h : t.wp R.spec Q (G p)) : wp R.Allows t.abs
      (fun a v' => ∃ g', Q a g' ∧ Own R ext v' (update G p g')) v := by
  induction t generalizing v G with
  | ret a => exact ⟨G p, h, H.same⟩
  | ask o k ih =>
    show wp _ (Op.abs o >>= fun b => T.abs (k b)) _ v
    rw [wp_bind]
    refine wp_weaken (wp_mono (H.op hown h.1) ?_) ?_
    · rintro b v' ⟨g', hpost, H'⟩
      have hself : update G p g' p = g' := update_self _ _ _
      have hown' : ∀ q, q ≠ p → (update G p g' q).alone = none := by
        intro q hq
        rw [update_of_ne hq]
        exact hown q hq
      have hrest := ih b H' hown' (by rw [hself]; exact Op.alone_ne_none h.1 hpost hal)
        (by rw [hself]; exact h.2 b g' hpost)
      simp only [update_idem] at hrest
      exact hrest
    · rintro f ⟨e, rfl, he | ⟨-, hnone⟩⟩
      · exact ⟨e, rfl, he⟩
      · exact absurd hnone hal

end Threads

/-! ## One process -/

/-- The view and what the process owns, if no other process holds a lock. -/
structure Stands (R : Rules) (v : View) (g : Ghost) : Prop where
  sb : v.sb = R.sb
  ninodes : R.sb.ninodes ≤ R.sb.nino
  count : ∀ ip, g.count ip ≤ (v.ent ip).ref
  inum : ∀ ip i, (ip, i) ∈ g.refs → (v.ent ip).inum = i
  lt : ∀ ip, 0 < (v.ent ip).ref → (v.ent ip).inum < R.sb.nino
  unique : ∀ ip jp, 0 < (v.ent ip).ref → 0 < (v.ent jp).ref →
    (v.ent ip).inum = (v.ent jp).inum → ip = jp
  locked : ∀ ip, (v.ent ip).locked = true ↔ g.held ip ≠ none
  owner : ∀ ip, g.held ip ≠ none → ∃ i, (ip, i) ∈ g.refs
  known : ∀ ip a n, g.held ip = some (.known a n) → (v.ent ip).valid = true ∧
    (v.ent ip).attr = a ∧ v.nodeOf ip = n ∧ n.attr.type ≠ T_FREE ∧ a.type = n.attr.type
  clean : ∀ ip, 0 < (v.ent ip).ref → ¬ g.Knows ip → (v.ent ip).valid = true →
    (v.ent ip).attr = (v.nodeOf ip).attr ∧ (v.nodeOf ip).attr.type ≠ T_FREE
  good : ∀ i < R.sb.nino, (v.node i).attr.type ≠ T_FREE →
    (∀ ip, (ip, i) ∈ g.refs → ¬ g.Knows ip) → R.Good i (v.node i)
  tx : g.tx = true → 0 < v.outstanding
  stale : v.stale = false
  alone : ∀ A, g.alone = some A → A.Holds v g

/-- A process that has nothing but a transaction. -/
def idle : Ghost := ⟨true, 0, fun _ => none, none⟩

/-- The process, and others that are in transactions. -/
def family (g : Ghost) (m : ℕ) : Option (Fin m) → Ghost
  | none => g
  | some _ => idle

theorem family_alone (g : Ghost) (m : ℕ) (q : Option (Fin m)) (hq : q ≠ none) :
    (family g m q).alone = none := by
  cases q with
  | none => exact absurd rfl hq
  | some q => rfl

theorem update_family (g g' : Ghost) (m : ℕ) :
    update (family g m) none g' = family g' m := by
  funext q
  cases q with
  | none => exact update_self _ _ _
  | some q => exact update_of_ne (Option.some_ne_none q) _ _

theorem idle_count (ip : Ip) : idle.count ip = 0 := rfl

theorem sum_family (f : Ghost → ℕ) (g : Ghost) (m : ℕ) :
    ∑ q, f (family g m q) = f g + m * f idle := by
  rw [Fintype.sum_option]
  show f g + ∑ _q : Fin m, f idle = _
  rw [sum_const_nat fun _ _ => rfl, card_univ, Fintype.card_fin]

theorem Stands.own (H : Stands R v g) : Own R (fun ip => (v.ent ip).ref - g.count ip) v
    (family g (v.outstanding - if g.tx then 1 else 0)) := by
  refine ⟨H.sb, H.ninodes, fun ip => ?_, fun q => ?_, H.lt, H.unique, fun ip => ?_, fun p q ip => ?_,
    fun q => ?_, fun q => ?_, fun ip hr hk => H.clean ip hr (hk none),
    fun i hi ht hk => H.good i hi ht (hk none), ?_, H.stale, fun q => ?_⟩
  · have hc := H.count ip
    rw [sum_family (fun g => g.count ip), idle_count]
    omega
  · cases q with
    | none => exact H.inum
    | some q => exact fun ip i h => absurd h (Multiset.notMem_zero _)
  · rw [H.locked]
    refine ⟨fun h => ⟨none, h⟩, ?_⟩
    rintro ⟨q, hq⟩
    cases q with
    | none => exact hq
    | some q => exact absurd rfl hq
  · cases p with
    | some p => exact fun h => absurd rfl h
    | none =>
      cases q with
      | some q => exact fun _ h => absurd rfl h
      | none => exact fun _ _ => rfl
  · cases q with
    | none => exact H.owner
    | some q => exact fun ip h => absurd rfl h
  · cases q with
    | none => exact H.known
    | some q => exact fun ip a n h => by cases h
  · have htx := H.tx
    rw [sum_family (fun g => if g.tx then 1 else 0)]
    show _ = _ + _ * 1
    split_ifs at htx ⊢ with h
    · have := htx h
      omega
    · omega
  · cases q with
    | none => exact H.alone
    | some q => exact fun A h => by cases h

theorem Stands.of_own {ext : Ip → ℕ} {m : ℕ} (H : Own R ext v (family g m)) : Stands R v g where
  sb := H.sb
  ninodes := H.ninodes
  count ip := by
    have := H.ref ip
    rw [sum_family (fun g => g.count ip), idle_count] at this
    omega
  inum := H.inum none
  lt := H.lt
  unique := H.unique
  locked ip := by
    rw [H.locked]
    refine ⟨?_, fun h => ⟨none, h⟩⟩
    rintro ⟨q, hq⟩
    cases q with
    | none => exact hq
    | some q => exact absurd rfl hq
  owner := H.owner none
  known := H.known none
  clean ip hr hk := H.clean ip hr fun q => by
    cases q with
    | none => exact hk
    | some q => rintro ⟨a, n, h⟩; cases h
  good i hi ht hk := H.good i hi ht fun q ip hm => by
    cases q with
    | none => exact hk ip hm
    | some q => exact absurd hm (Multiset.notMem_zero _)
  tx := H.outstanding_pos (p := none)
  stale := H.stale
  alone := H.alone none

theorem Stands.runs (t : T α) {Q : α → Ghost → Prop} (H : Stands R v g) (hal : g.alone ≠ none)
    (h : t.wp R.spec Q g) :
    wp R.Allows t.abs (fun a v' => ∃ g', Q a g' ∧ Stands R v' g') v := by
  refine wp_mono (H.own.runs (p := none) t (family_alone _ _) hal h) ?_
  rintro a v' ⟨g', hQ, H'⟩
  rw [update_family] at H'
  exact ⟨g', hQ, .of_own H'⟩

/-! ## Stores -/

/-- So does the code on the store, unless it runs out of blocks. -/
theorem Stands.wp_code (t : T α) {Q : α → Ghost → Prop} (hrep : Rep s v) (H : Stands R v g)
    (hal : g.alone ≠ none) (h : t.wp R.spec Q g) :
    wp (fun e => R.Panics e.1 ∨ e.1 = .outOfBlocks) t.code
      (fun a s' => ∃ v', Rep s' v' ∧ ∃ g', Q a g' ∧ Stands R v' g') s := by
  refine wp_weaken ((T.refines t hrep).wp (H.runs t hal h) ?_) ?_
  · rintro _ ⟨e, rfl, -⟩ hm
    cases hm
  · rintro e (⟨_, ⟨e', rfl, he'⟩, hf⟩ | hshort)
    · cases hf
      exact Or.inl he'
    · exact Or.inr hshort

theorem Stands.wp_room (t : T α) {Q : α → Ghost → Prop} {n : ℕ} (hrep : Rep s v) (H : Stands R v g)
    {A : Alone} (hA : g.alone = some A) (hroom : n ≤ nfree s.sb s.disk) (hno : ∀ e, ¬ R.Panics e)
    (h : t.wp R.spec (fun a g' => Q a g' ∧ ∀ A', g'.alone = some A' → A'.spent ≤ A.spent + n) g) :
    ∃ a s', t.code s = .ok (a, s') ∧ nfree s.sb s.disk ≤ nfree s'.sb s'.disk + n ∧
      ∃ v', Rep s' v' ∧ ∃ g', Q a g' ∧ Stands R v' g' := by
  have hal : g.alone ≠ none := by
    rw [hA]
    exact Option.some_ne_none _
  have hrun : wp (fun _ => False) t.abs _ v :=
    wp_weaken (H.runs t hal (wp_alone hal h)) fun e ⟨e', _, he'⟩ => hno e' he'
  have hspent := (H.alone A hA).spent
  have hcode := (T.refines t hrep).wp_room (n := n) (wp_mono hrun fun a v' h' =>
    (⟨?_, ?_⟩ : (∃ g', Q a g' ∧ Stands R v' g') ∧ v'.spent ≤ v.spent + n))
  · obtain ⟨a, s', hs', hpost, hleft⟩ := wp_returns
      (wp_weaken hcode fun e he => absurd he.2 (Nat.not_lt.mpr hroom))
    exact ⟨a, s', hs', hleft, hpost⟩
  · obtain ⟨g', ⟨⟨hQ, -⟩, -⟩, H'⟩ := h'
    exact ⟨g', hQ, H'⟩
  · obtain ⟨g', ⟨⟨-, hle⟩, hal'⟩, H'⟩ := h'
    obtain ⟨A', hA'⟩ := Option.ne_none_iff_exists'.mp hal'
    have hspent' := (H'.alone A' hA').spent
    have := hle A' hA'
    omega

theorem code_bind_ok {β : Type} {s' : Store} {t : T α} {x : α} (ht : t.code s = .ok (x, s')) (f : α → T β) :
    T.code (t >>= f) s = T.code (f x) s' := by
  have hbind : T.code (t >>= f) = T.code t >>= fun x => T.code (f x) := Thread.alone_bind _ t f
  rw [hbind]
  show (T.code t s >>= fun p => T.code (f p.1) p.2) = _
  rw [ht]
  rfl

theorem Stands.inUse_card_le (H : Stands R v g) {A : Alone} (hA : g.alone = some A) :
    (R.inUse g A).card ≤ (univ.filter fun ip => 0 < (v.ent ip).ref).card := by
  have hsub : R.inUse g A ⊆ (univ.filter fun ip => 0 < (v.ent ip).ref).image
      fun ip => (v.ent ip).inum := by
    intro i hi
    rw [mem_image]
    by_contra hno
    have hfree : ∀ ip, 0 < (v.ent ip).ref → (v.ent ip).inum ≠ i :=
      fun ip hr e => hno ⟨ip, mem_filter.mpr ⟨mem_univ _, hr⟩, e⟩
    rcases (mem_filter.mp hi).2 with hpos | hmem
    · have := (H.alone A hA).free i hfree
      omega
    · obtain ⟨⟨ip, j⟩, hm, rfl⟩ := Multiset.mem_map.mp hmem
      exact hfree ip (Nat.lt_of_lt_of_le (Ghost.count_pos hm) (H.count ip)) (H.inum ip j hm)
  exact (card_le_card hsub).trans card_image_le

def TwoPlaces (s : Store) : Prop := ∃ ip jp, ip ≠ jp ∧ (s.icache ip).ref = 0 ∧ (s.icache jp).ref = 0

theorem TwoPlaces.card (h : TwoPlaces s) :
    (univ.filter fun ip => 0 < ((view s).ent ip).ref).card + 2 ≤ NINODE := by
  obtain ⟨ip, jp, hne, hi, hj⟩ := h
  have hsub : (univ.filter fun ip => 0 < ((view s).ent ip).ref) ⊆ univ \ {ip, jp} := by
    intro kp hk
    rw [mem_filter] at hk
    rw [mem_sdiff, mem_insert, mem_singleton]
    refine ⟨mem_univ _, ?_⟩
    rintro (rfl | rfl)
    · exact absurd hi (Nat.pos_iff_ne_zero.mp hk.2)
    · exact absurd hj (Nat.pos_iff_ne_zero.mp hk.2)
  have hcard := card_le_card hsub
  rw [card_sdiff_of_subset (subset_univ _), card_pair hne, card_univ, Fintype.card_fin] at hcard
  have h100 : NINODE = 100 := rfl
  omega

/-- What there is besides the references of the process. -/
def Alone.of (v : View) (g : Ghost) : Alone where
  node := v.node
  others i := ∑ ip, if 0 < (v.ent ip).ref ∧ (v.ent ip).inum = i then (v.ent ip).ref - g.count ip else 0
  spent := v.spent
  young i := ¬ ∃ ip, 0 < (v.ent ip).ref ∧ (v.ent ip).inum = i ∧ (v.ent ip).valid = true

theorem Alone.of_holds (hcount : ∀ ip, g.count ip ≤ (v.ent ip).ref)
    (hunique : ∀ ip jp, 0 < (v.ent ip).ref → 0 < (v.ent jp).ref →
      (v.ent ip).inum = (v.ent jp).inum → ip = jp)
    (hlocked : ∀ ip, (v.ent ip).locked = true → g.held ip ≠ none) : (Alone.of v g).Holds v g where
  node := rfl
  others ip hr := by
    have hsum : (Alone.of v g).others (v.ent ip).inum = (v.ent ip).ref - g.count ip := by
      unfold Alone.of
      dsimp only
      rw [sum_eq_single ip, if_pos ⟨hr, rfl⟩]
      · intro jp _ hj
        exact if_neg fun h => hj (hunique jp ip h.1 hr h.2)
      · exact fun h => absurd (mem_univ ip) h
    have := hcount ip
    omega
  free i hi := by
    unfold Alone.of
    dsimp only
    exact sum_eq_zero fun ip _ => if_neg fun h => hi ip h.1 h.2
  locked := hlocked
  spent := rfl
  unlinked i _ hd := not_not.mp fun h => hd (Or.inl h)

/-- A store between two steps of the code of the one process that runs. -/
structure Settled (s : Store) : Prop where
  consistent : Consistent s
  /-- the copy of an inode that is not locked is the one on the disk -/
  clean : ∀ ip, 0 < (s.icache ip).ref → (s.icache ip).locked = false → (s.icache ip).valid = true →
    (s.icache ip).din.attr = (dinode s.sb s.disk (s.icache ip).inum).attr
  locked : ∀ ip, (s.icache ip).locked = true → 0 < (s.icache ip).ref
  stale : s.stale = false

/-- The process owns a reference for each of its locks. -/
def locks (s : Store) : Ghost where
  tx := decide (0 < s.outstanding)
  refs := (univ.filter fun ip => (s.icache ip).locked = true).val.map fun ip => (ip, (s.icache ip).inum)
  held ip :=
    if (s.icache ip).locked = true then
      some (if (s.icache ip).valid = true then .known (s.icache ip).din.attr ((view s).nodeOf ip)
        else .unknown)
    else none
  alone := none

def process (s : Store) : Ghost := { locks s with alone := some (Alone.of (view s) (locks s)) }

theorem mem_locks : (ip, i) ∈ (locks s).refs ↔
    (s.icache ip).locked = true ∧ (s.icache ip).inum = i := by
  unfold locks
  rw [Multiset.mem_map]
  simp only [mem_val, mem_filter, mem_univ, true_and, Prod.mk.injEq]
  exact ⟨fun ⟨jp, h, e, e'⟩ => e ▸ ⟨h, e'⟩, fun h => ⟨ip, h.1, rfl, h.2⟩⟩

theorem count_locks : (locks s).count ip = if (s.icache ip).locked = true then 1 else 0 := by
  unfold Ghost.count locks
  rw [Multiset.countP_map, filter_val, Multiset.filter_filter, ← filter_val, card_val]
  split_ifs with h
  · rw [card_eq_one]
    refine ⟨ip, Finset.ext fun jp => ?_⟩
    rw [mem_filter, mem_singleton]
    exact ⟨fun h => h.2.1, fun e => ⟨mem_univ _, e, e ▸ h⟩⟩
  · rw [card_eq_zero, filter_eq_empty_iff]
    rintro jp - ⟨e, h'⟩
    exact h (e ▸ h')

theorem locks_held (hl : (s.icache ip).locked = true) (hv : (s.icache ip).valid = true) :
    (locks s).held ip = some (.known (s.icache ip).din.attr ((view s).nodeOf ip)) := by
  unfold locks
  dsimp only
  rw [if_pos hl, if_pos hv]

theorem Settled.stands (h : Settled s) (hsb : R.sb = s.sb) (hgood : ∀ i n, R.Good i n) :
    Stands R (view s) (process s) := by
  have hown : ∀ ip, (s.icache ip).locked = true ↔ (locks s).held ip ≠ none := by
    intro ip
    unfold locks
    dsimp only
    by_cases hl : (s.icache ip).locked = true
    · rw [if_pos hl]
      exact iff_of_true hl (Option.some_ne_none _)
    · rw [if_neg hl]
      exact iff_of_false hl fun h => h rfl
  have hcount : ∀ ip, (locks s).count ip ≤ (s.icache ip).ref := by
    intro ip
    rw [count_locks]
    split_ifs with hl
    · exact h.locked ip hl
    · exact Nat.zero_le _
  have hunique := h.consistent.sound.unique
  refine ⟨hsb.symm, hsb ▸ h.consistent.sound.layout.ninodes, hcount,
    fun ip i hm => (mem_locks.mp hm).2, ?_, hunique, hown,
    fun ip hh => ⟨_, mem_locks.mpr ⟨(hown ip).mpr hh, rfl⟩⟩, fun ip a n hk => ?_, fun ip hr hk hv => ?_,
    fun i _ _ _ => hgood i _, fun htx => of_decide_eq_true htx, h.stale, fun A hA => ?_⟩
  · rw [hsb]
    exact h.consistent.sound.inum
  · have hk' : (locks s).held ip = some (.known a n) := hk
    have hl : (s.icache ip).locked = true := by
      rw [hown, hk']
      exact Option.some_ne_none _
    by_cases hv : (s.icache ip).valid = true
    · rw [locks_held hl hv] at hk'
      cases hk'
      obtain ⟨htype, hne⟩ := h.consistent.live ip (h.locked ip hl) hv
      exact ⟨hv, rfl, rfl, fun e => hne (htype.trans e), htype⟩
    · have hu : (locks s).held ip = some .unknown := by
        unfold locks
        dsimp only
        rw [if_pos hl, if_neg hv]
      rw [hu] at hk'
      cases hk'
  · have hv' : (s.icache ip).valid = true := hv
    obtain ⟨htype, hne⟩ := h.consistent.live ip hr hv'
    have hl : (s.icache ip).locked = false := by
      by_contra hl
      rw [Bool.not_eq_false] at hl
      exact hk ⟨_, _, locks_held hl hv'⟩
    exact ⟨h.clean ip hr hl hv', fun e => hne (htype.trans e)⟩
  · cases hA
    have hholds := Alone.of_holds (v := view s) (g := locks s) hcount hunique fun ip => (hown ip).mp
    exact ⟨hholds.node, hholds.others, hholds.free, hholds.locked, hholds.spent, hholds.unlinked⟩

end DuckoUnix.Inode
