import DuckoUnix.Bio.Links
import Mathlib.Data.Fintype.Card

/-!
# One buffer for a block

The list stays a ring of all buffers, and no two buffers in use are for one block. `refcnt` counts
the holder of the lock and the processes between finding and locking the buffer, or between
unlocking and putting it back.

A buffer that has never been used is for block 0 of device 0, so the search of `bget` can meet it
for a real request. It cannot hide the buffer that is in use for that block: unused buffers stay
behind it in the list, since only released buffers move, and they move to the front.
-/

namespace DuckoUnix.Bcache

open Lib Bio Function

variable {N : ℕ} {s s' : State N} {i j : Fin NBUF} {p q : Fin N} {k : Key} {l l' : List (Fin NBUF)}
  {x y : Buf N} {t : Bool} {ph : Phase}

/-! ## The invariant of the list and the buffers -/

def InUse (x : Buf N) : Prop := 0 < x.refcnt ∨ x.valid = true ∨ x.dirty = true

instance (x : Buf N) : Decidable (InUse x) := inferInstanceAs (Decidable (_ ∨ _))

theorem inUse_of_valid (h : x.valid = true) : InUse x := .inr (.inl h)

/-- The process is in no call, or in one that deals with buffer `i`. -/
def Phase.About (i : Fin NBUF) : Phase → Prop
  | .idle => True
  | .want j _ => j = i
  | .read j _ => j = i
  | .put j => j = i

/-- What process `p` relies on about the buffer `x` it deals with. -/
def Phase.Ok (p : Fin N) (x : Buf N) : Phase → Prop
  | .idle => True
  | .want _ k => key x = k
  | .read _ k => key x = k ∧ x.lock = some p ∧ x.valid = false
  | .put _ => x.valid = true

/-- Whether `refcnt` of buffer `i` counts the process, besides the holder of the lock. -/
def Phase.count (i : Fin NBUF) : Phase → ℕ
  | .want j _ => if j = i then 1 else 0
  | .put j => if j = i then 1 else 0
  | _ => 0

def waiting (phase : Fin N → Phase) (i : Fin NBUF) : ℕ := ∑ p, (phase p).count i

def held (x : Buf N) : ℕ := if x.lock.isSome then 1 else 0

structure BufOk (phase : Fin N → Phase) (i : Fin NBUF) (x : Buf N) (touched : Bool) : Prop where
  refcnt : x.refcnt = held x + waiting phase i
  dirty : x.dirty = true → x.valid = true
  locked : ∀ p, x.lock = some p → x.valid = true ∨ ∃ k, phase p = .read i k
  touched : touched = true → x.lock.isSome = true ∧ x.valid = true
  unused : ¬ InUse x → key x = (0, 0)

/-- `j` is not hidden behind the unused buffer `i`. -/
def Ahead (buf : Fin NBUF → Buf N) (i j : Fin NBUF) : Prop :=
  InUse (buf i) ∨ ¬ (InUse (buf j) ∧ key (buf j) = (0, 0))

/-- The invariant, with `l` the buffers in the order of the list. -/
structure Inv (s : State N) (l : List (Fin NBUF)) : Prop where
  ring : s.links.Linked none (l.map some)
  all : ∀ i, i ∈ l
  ahead : l.Pairwise (Ahead s.buf)
  unique : ∀ i j, InUse (s.buf i) → InUse (s.buf j) → key (s.buf i) = key (s.buf j) → i = j
  buf : ∀ i, BufOk s.phase i (s.buf i) (s.touched i)
  phase : ∀ p i, (s.phase p).About i → (s.phase p).Ok p (s.buf i)

theorem Inv.ok (h : Inv s l) (hp : s.phase p = ph) (hi : ph.About i) : ph.Ok p (s.buf i) := by
  subst hp
  exact h.phase p i hi

theorem waiting_update (phase : Fin N → Phase) (p : Fin N) (ph : Phase) (i : Fin NBUF) :
    waiting (update phase p ph) i + (phase p).count i = waiting phase i + ph.count i :=
  sum_update_add (Phase.count i) phase p ph

theorem count_le_waiting (phase : Fin N → Phase) (p : Fin N) (i : Fin NBUF) :
    (phase p).count i ≤ waiting phase i := by
  have hu : _ = waiting phase i + 0 := waiting_update phase p .idle i
  omega

theorem Phase.About.count_eq_zero (h : ph.About i) (hj : j ≠ i) : ph.count j = 0 := by
  cases ph with
  | idle | read m k => rfl
  | want m k | put m => exact if_neg fun e => hj (e.symm.trans h)

theorem Phase.About.eq_idle (hi : ph.About i) (hj : ph.About j) (e : j ≠ i) : ph = .idle := by
  cases ph with
  | idle => rfl
  | want m k | read m k | put m => exact absurd (hj.symm.trans hi) e

/-- A process is not disturbed by a change of its buffer that keeps the block, does not take
`B_VALID` away and does not meddle with the lock if the process holds it. -/
theorem Phase.Ok.change (h : ph.Ok q x) (hkey : key y = key x)
    (hvalid : x.valid = true → y.valid = true)
    (hread : x.lock = some q → x.valid = false → y.lock = some q ∧ y.valid = false) :
    ph.Ok q y := by
  cases ph with
  | idle => trivial
  | want j k => exact hkey.trans h
  | read j k => exact ⟨hkey.trans h.1, hread h.2.1 h.2.2⟩
  | put j => exact hvalid h

/-- The step changes buffer `i` to `x` and process `p` to `ph`. -/
structure Changes (s s' : State N) (i : Fin NBUF) (x : Buf N) (t : Bool) (p : Fin N) (ph : Phase) :
    Prop where
  buf : s'.buf = update s.buf i x
  touched : s'.touched = update s.touched i t
  phase : s'.phase = update s.phase p ph

theorem changes_set : Changes s (s.set i x p ph) i x (s.touched i) p ph :=
  ⟨rfl, (update_eq_self i s.touched).symm, rfl⟩

theorem Changes.bufOk (hc : Changes s s' i x t p ph) (hp : (s.phase p).About i) (hp' : ph.About i)
    (hj : j ≠ i) (h : BufOk s.phase j (s.buf j) (s.touched j)) :
    BufOk s'.phase j (s'.buf j) (s'.touched j) := by
  rw [hc.buf, hc.touched, update_of_ne hj, update_of_ne hj]
  refine { h with refcnt := ?_, locked := fun q hq => ?_ }
  · have hu := waiting_update s.phase p ph j
    rw [hp.count_eq_zero hj, hp'.count_eq_zero hj] at hu
    rw [hc.phase, h.refcnt]
    omega
  · refine (h.locked q hq).imp id fun ⟨k, hk⟩ => ⟨k, ?_⟩
    have hqp : q ≠ p := by
      rintro rfl
      rw [hk] at hp
      exact hj hp
    rw [hc.phase, update_of_ne hqp, hk]

/-- After a change of buffer `i` by `p`, what has to be shown is about the two and about those who
wait for the buffer. -/
theorem Inv.change (h : Inv s l) (hc : Changes s s' i x t p ph) (hp : (s.phase p).About i)
    (hp' : ph.About i) (hring : s'.links.Linked none (l'.map some))
    (hall : ∀ j, j ∈ l') (hahead : l'.Pairwise (Ahead s'.buf))
    (hunique : ∀ j, j ≠ i → InUse (s.buf j) → key (s.buf j) ≠ key x)
    (hbuf : BufOk s'.phase i x t) (hself : ph.Ok p x)
    (hothers : ∀ q, q ≠ p → (s.phase q).About i → (s.phase q).Ok q x) : Inv s' l' where
  ring := hring
  all := hall
  ahead := hahead
  unique := by
    intro a b ha hb hab
    rw [hc.buf] at ha hb hab
    refine unique_update (R := fun k y => InUse y ∧ key y = k) ?_ ?_ a b _ ⟨ha, hab⟩ ⟨hb, rfl⟩
    · exact fun a b k ha hb => h.unique a b ha.1 hb.1 (ha.2.trans hb.2.symm)
    · exact fun j k hj hx hk => hunique j hj hk.1 (hk.2.trans hx.2.symm)
  buf := by
    intro j
    by_cases e : j = i
    · rw [e, hc.buf, hc.touched, update_self, update_self]
      exact hbuf
    · exact hc.bufOk hp hp' e (h.buf j)
  phase := by
    intro q j hj
    rw [hc.phase] at hj ⊢
    rw [hc.buf]
    by_cases e : q = p
    · rw [e, update_self] at hj ⊢
      by_cases ej : j = i
      · rw [ej, update_self]
        exact hself
      · rw [hp'.eq_idle hj ej]
        trivial
    · rw [update_of_ne e] at hj ⊢
      by_cases ej : j = i
      · rw [ej] at hj ⊢
        rw [update_self]
        exact hothers q e hj
      · rw [update_of_ne ej]
        exact h.phase q j hj

/-- What `refcnt` has to become. -/
theorem Inv.refcnt (h : Inv s l) (hc : Changes s s' i x t p ph)
    (hx : x.refcnt + (held (s.buf i) + (s.phase p).count i) =
      (s.buf i).refcnt + (held x + ph.count i)) : x.refcnt = held x + waiting s'.phase i := by
  have hu := waiting_update s.phase p ph i
  have hi := (h.buf i).refcnt
  rw [hc.phase]
  omega

/-- A change of a buffer that is in use and stays so, for the same block. -/
theorem Inv.keep (h : Inv s l) (hc : Changes s s' i x t p ph) (hp : (s.phase p).About i)
    (hp' : ph.About i) (hring : s'.links.Linked none (l'.map some))
    (hall : ∀ j, j ∈ l') (hahead : l'.Pairwise (Ahead s.buf))
    (huse : InUse (s.buf i)) (huse' : InUse x) (hkey : key x = key (s.buf i))
    (hbuf : BufOk s'.phase i x t) (hself : ph.Ok p x)
    (hvalid : (s.buf i).valid = true → x.valid = true)
    (hread : ∀ q, q ≠ p → (s.buf i).lock = some q → (s.buf i).valid = false →
      x.lock = some q ∧ x.valid = false) : Inv s' l' := by
  have hsame : ∀ j, (InUse (s'.buf j) ↔ InUse (s.buf j)) ∧ key (s'.buf j) = key (s.buf j) := by
    intro j
    rw [hc.buf]
    by_cases e : j = i
    · rw [e, update_self]
      exact ⟨iff_of_true huse' huse, hkey⟩
    · rw [update_of_ne e]
      exact ⟨Iff.rfl, rfl⟩
  refine h.change hc hp hp' hring hall (hahead.imp fun {a b} hab => ?_)
    (fun j hj hjuse hjkey => ?_) hbuf hself fun q hq hi => ?_
  · unfold Ahead at hab ⊢
    rwa [(hsame a).1, (hsame b).1, (hsame b).2]
  · exact hj (h.unique j i hjuse huse (hjkey.trans hkey))
  · exact (h.phase q i hi).change hkey hvalid (hread q hq)

/-- A change after which the buffer has `B_VALID`. -/
theorem Inv.valid (h : Inv s l) (hc : Changes s s' i x t p ph) (hp : (s.phase p).About i)
    (hp' : ph.About i) (hring : s'.links.Linked none (l'.map some))
    (hall : ∀ j, j ∈ l') (hahead : l'.Pairwise (Ahead s.buf))
    (huse : InUse (s.buf i)) (hx : x.valid = true) (hkey : key x = key (s.buf i))
    (hrefcnt : x.refcnt + (held (s.buf i) + (s.phase p).count i) =
      (s.buf i).refcnt + (held x + ph.count i)) (ht : t = true → x.lock.isSome = true)
    (hself : ph.Ok p x)
    (hread : ∀ q, q ≠ p → (s.buf i).lock = some q → (s.buf i).valid = true) : Inv s' l' := by
  refine h.keep hc hp hp' hring hall hahead huse (inUse_of_valid hx) hkey ?_ hself (fun _ => hx) ?_
  · exact ⟨h.refcnt hc hrefcnt, fun _ => hx, fun _ _ => .inl hx, fun e => ⟨ht e, hx⟩,
      fun hn => absurd (inUse_of_valid hx) hn⟩
  · intro q hq hlock hv
    rw [hread q hq hlock] at hv
    cases hv

/-! ## The list and its walks -/

theorem Inv.nodup (h : Inv s l) : l.Nodup :=
  (List.nodup_cons.mp h.ring.nodup).2.of_map some

theorem Inv.length_le (h : Inv s l) : l.length ≤ NBUF := by
  have := List.Nodup.length_le_card h.nodup
  rwa [Fintype.card_fin] at this

theorem reduceOption_map_some (l : List (Fin NBUF)) : (l.map some).reduceOption = l := by
  show (l.map some).filterMap id = l
  rw [List.filterMap_map]
  exact List.filterMap_some

theorem Inv.forward_eq (h : Inv s l) : s.forward = l := by
  unfold State.forward
  rw [h.ring.walk_next (by rw [List.length_map]; exact Nat.lt_succ_of_le h.length_le)]
  exact reduceOption_map_some l

theorem Inv.backward_eq (h : Inv s l) : s.backward = l.reverse := by
  unfold State.backward
  rw [h.ring.walk_prev (by rw [List.length_map]; exact Nat.lt_succ_of_le h.length_le)]
  rw [← List.map_reverse]
  exact reduceOption_map_some l.reverse

theorem binit_inv (disk : Key → Block) :
    Inv (binit disk : State N) (List.finRange NBUF).reverse where
  ring := by
    have hnil : (⟨fun _ => none, fun _ => none⟩ : Links Node).Linked none [] :=
      ⟨⟨rfl, rfl⟩, List.nodup_singleton _⟩
    have hnodup : (none :: (((List.finRange NBUF).map some).reverse ++ [])).Nodup := by
      rw [List.append_nil, List.nodup_cons, List.nodup_reverse]
      refine ⟨by simp, (List.nodup_finRange NBUF).map (Option.some_injective _)⟩
    have h := hnil.pushAll hnodup
    rw [List.append_nil, List.foldl_map, ← List.map_reverse] at h
    exact h
  all := fun i => List.mem_reverse.mpr (List.mem_finRange i)
  ahead := by
    refine List.pairwise_of_forall fun a b => Or.inr fun hb => ?_
    exact absurd hb.1 (by simp [InUse, binit])
  unique := fun i j hi => absurd hi (by simp [InUse, binit])
  buf := fun i => by
    have hw : waiting (binit disk : State N).phase i = 0 := by simp [waiting, binit, Phase.count]
    exact ⟨by rw [hw]; rfl, nofun, nofun, nofun, fun _ => rfl⟩
  phase := fun p i _ => trivial

/-! ## What a step does -/

/-- The effect of a step, with `l` the list. -/
inductive Effect (s : State N) (l : List (Fin NBUF)) : Act N → State N → Prop
  | hit {p : Fin N} {k : Key} {i : Fin NBUF} {l₁ l₂ : List (Fin NBUF)} :
      s.phase p = .idle → l = l₁ ++ i :: l₂ → key (s.buf i) = k →
      (∀ j ∈ l₁, key (s.buf j) ≠ k) →
      Effect s l (.bget p k)
        (s.set i { s.buf i with refcnt := (s.buf i).refcnt + 1 } p (.want i k))
  | recycle {p : Fin N} {k : Key} {i : Fin NBUF} :
      s.phase p = .idle → (∀ j, key (s.buf j) ≠ k) → (s.buf i).Unused →
      Effect s l (.bget p k)
        (s.set i { s.buf i with
          dev := k.1, blockno := k.2, valid := false, dirty := false, refcnt := 1 } p (.want i k))
  | acquire {p : Fin N} {i : Fin NBUF} {k : Key} :
      s.phase p = .want i k → (s.buf i).lock = none →
      Effect s l (.acquire p)
        (s.set i { s.buf i with lock := some p } p (if (s.buf i).valid then .idle else .read i k))
  | read {p : Fin N} {i : Fin NBUF} {k : Key} :
      s.phase p = .read i k →
      Effect s l (.iderw p)
        (s.set i { s.buf i with valid := true, data := s.disk (place k) } p .idle)
  | store {p : Fin N} {i : Fin NBUF} {d : Block} :
      s.phase p = .idle → (s.buf i).lock = some p →
      Effect s l (.store p i d)
        { s.set i { s.buf i with data := d } p .idle with
          touched := update s.touched i true
          latest := update s.latest (key (s.buf i)) d }
  | bwrite {p : Fin N} {i : Fin NBUF} :
      s.phase p = .idle → (s.buf i).lock = some p →
      Effect s l (.bwrite p i)
        { s.set i { s.buf i with valid := true, dirty := false } p .idle with
          disk := update s.disk (place (key (s.buf i))) (s.buf i).data
          touched := update s.touched i false }
  | log_write {p : Fin N} {i : Fin NBUF} :
      s.phase p = .idle → (s.buf i).lock = some p →
      Effect s l (.log_write p i)
        { s.set i { s.buf i with dirty := true } p .idle with
          touched := update s.touched i false }
  | release {p : Fin N} {i : Fin NBUF} :
      s.phase p = .idle → (s.buf i).lock = some p → s.touched i = false →
      Effect s l (.release p i) (s.set i { s.buf i with lock := none } p (.put i))
  | put {p : Fin N} {i : Fin NBUF} : s.phase p = .put i → Effect s l (.put p) (brelse s p i)

theorem is_iff (x : Buf N) (k : Key) : x.Is k.1 k.2 ↔ key x = k := by
  unfold Buf.Is key
  rw [Prod.ext_iff]

theorem bget_effect (h : Inv s l) (hp : s.phase p = .idle) (hs : bget s p k = some s') :
    Effect s l (.bget p k) s' := by
  unfold bget at hs
  rw [h.forward_eq, h.backward_eq] at hs
  split at hs
  · rename_i i hi
    obtain ⟨hik, l₁, l₂, hl, hfirst⟩ := List.find?_eq_some_iff_append.mp hi
    cases hs
    refine .hit hp hl ((is_iff _ k).mp (of_decide_eq_true hik)) fun j hj e => ?_
    have := hfirst j hj
    simp [(is_iff _ k).mpr e] at this
  · rename_i hnone
    split at hs
    · rename_i i hi
      cases hs
      have hunused : decide (s.buf i).Unused = true :=
        List.find?_some (p := fun j => decide (s.buf j).Unused) hi
      refine .recycle hp (fun j e => ?_) (of_decide_eq_true hunused)
      have := List.find?_eq_none.mp hnone j (h.all j)
      simp [(is_iff _ k).mpr e] at this
    · cases hs

theorem iderw_effect (h : Inv s l) (hp : s.phase p = .read i k) (hs : iderw s p i = some s') :
    Effect s l (.iderw p) s' := by
  obtain ⟨hk, -, hv⟩ := h.ok hp rfl
  have hd : (s.buf i).dirty = false := by
    cases e : (s.buf i).dirty with
    | false => rfl
    | true =>
      rw [(h.buf i).dirty e] at hv
      cases hv
  unfold iderw at hs
  dsimp only at hs
  split at hs
  · cases hs
  split at hs
  · cases hs
  split at hs
  · cases hs
  rw [hd, if_neg Bool.false_ne_true, hk] at hs
  cases hs
  rw [← hd]
  exact .read hp

theorem bwrite_effect (hp : s.phase p = .idle) (hs : bwrite s p i = some s') :
    Effect s l (.bwrite p i) s' := by
  unfold bwrite at hs
  split at hs
  · rename_i hlock
    obtain ⟨t, ht, rfl⟩ := Option.map_eq_some_iff.mp hs
    unfold iderw at ht
    simp only [State.set, update_self] at ht
    split at ht
    · cases ht
    split at ht
    · cases ht
    split at ht
    · cases ht
    rw [if_pos trivial] at ht
    cases ht
    have he := Effect.bwrite (l := l) hp hlock
    simp only [State.set] at he
    simp only [update_idem]
    exact he
  · cases hs

theorem step_effect {a : Act N} (h : Inv s l) (hs : step s a = some s') : Effect s l a s' := by
  cases a with
  | bget p k =>
    simp only [step, Option.ite_none_right_eq_some] at hs
    exact bget_effect h hs.1 hs.2
  | acquire p =>
    simp only [step] at hs
    split at hs
    · rename_i i k hp
      simp only [acquiresleep, Option.ite_none_right_eq_some] at hs
      obtain ⟨hlock, hs⟩ := hs
      cases hs
      exact .acquire hp hlock
    · cases hs
  | iderw p =>
    simp only [step] at hs
    split at hs
    · rename_i i k hp
      exact iderw_effect h hp hs
    · cases hs
  | store p i d =>
    simp only [step, store, Option.ite_none_right_eq_some] at hs
    obtain ⟨hp, hlock, hs⟩ := hs
    cases hs
    exact .store hp hlock
  | bwrite p i =>
    simp only [step, Option.ite_none_right_eq_some] at hs
    exact bwrite_effect hs.1 hs.2
  | log_write p i =>
    simp only [step, log_write, Option.ite_none_right_eq_some] at hs
    obtain ⟨hp, hlock, hs⟩ := hs
    cases hs
    exact .log_write hp hlock
  | release p i =>
    simp only [step, releasesleep, Option.ite_none_right_eq_some] at hs
    obtain ⟨hp, ⟨hlock, ht⟩, hs⟩ := hs
    cases hs
    exact .release hp hlock ht
  | put p =>
    simp only [step] at hs
    split at hs
    · rename_i i hp
      cases hs
      exact .put hp
    · cases hs

/-! ## Steps keep the invariant -/

theorem Inv.not_hidden (h : Inv s l) {l₁ l₂ : List (Fin NBUF)} (hl : l = l₁ ++ i :: l₂)
    (hfirst : ∀ m ∈ l₁, key (s.buf m) ≠ key (s.buf i)) (huse : InUse (s.buf j))
    (hkey : key (s.buf j) = key (s.buf i)) : j = i := by
  by_cases hi : InUse (s.buf i)
  · exact h.unique j i huse hi hkey
  · -- `j` cannot be before `i`, where no buffer is for the block, nor behind it
    have hj := h.all j
    rw [hl, List.mem_append, List.mem_cons] at hj
    rcases hj with hj | rfl | hj
    · exact absurd hkey (hfirst j hj)
    · rfl
    · have hahead := h.ahead
      rw [hl, List.pairwise_append, List.pairwise_cons] at hahead
      refine absurd ⟨huse, ?_⟩ ((hahead.2.1.1 j hj).resolve_left hi)
      rw [hkey, (h.buf i).unused hi]

/-- Taking buffer `i` into use changes nothing for the others when those before it are in use. -/
theorem Inv.ahead_change (h : Inv s l) {l₁ l₂ : List (Fin NBUF)} (hl : l = l₁ ++ i :: l₂)
    (huse : InUse x) (hbefore : ∀ a ∈ l₁, ¬ InUse (s.buf a) → key x ≠ (0, 0)) :
    l.Pairwise (Ahead (update s.buf i x)) := by
  have hstep : ∀ a b, b ≠ i → Ahead s.buf a b → Ahead (update s.buf i x) a b := by
    intro a b hb hab
    unfold Ahead at hab ⊢
    rw [update_of_ne hb]
    by_cases e : a = i
    · rw [e, update_self]
      exact .inl huse
    · rwa [update_of_ne e]
  have hnodup := h.nodup
  have hahead := h.ahead
  rw [hl, List.nodup_append] at hnodup
  obtain ⟨-, hn, hdisj⟩ := hnodup
  have hi₁ : ∀ a ∈ l₁, a ≠ i := fun a ha => hdisj a ha i List.mem_cons_self
  have hi₂ : ∀ a ∈ l₂, a ≠ i := fun a ha e => (List.nodup_cons.mp hn).1 (e ▸ ha)
  rw [hl, List.pairwise_append, List.pairwise_cons] at hahead ⊢
  obtain ⟨h1, ⟨-, h2⟩, h3⟩ := hahead
  refine ⟨h1.imp_of_mem fun {a b} _ hb hab => hstep a b (hi₁ b hb) hab,
    ⟨fun b _ => .inl ?_, h2.imp_of_mem fun {a b} _ hb hab => hstep a b (hi₂ b hb) hab⟩, ?_⟩
  · rwa [update_self]
  intro a ha b hb
  rcases List.mem_cons.mp hb with rfl | hb'
  · unfold Ahead
    rw [update_of_ne (hi₁ a ha), update_self]
    by_cases hause : InUse (s.buf a)
    · exact .inl hause
    · exact .inr fun hx => hbefore a ha hause hx.2
  · exact hstep a b (hi₂ b hb') (h3 a ha b hb)

/-- The block of a buffer in the hands of its holder has been read. -/
theorem Inv.holder_valid (h : Inv s l) (hp : s.phase p = .idle) (hlock : (s.buf i).lock = some p) :
    (s.buf i).valid = true := by
  refine ((h.buf i).locked p hlock).resolve_right fun ⟨k, hk⟩ => ?_
  rw [hp] at hk
  cases hk

theorem Inv.hit (h : Inv s l) {l₁ l₂ : List (Fin NBUF)} (hp : s.phase p = .idle)
    (hl : l = l₁ ++ i :: l₂) (hkey : key (s.buf i) = k) (hfirst : ∀ j ∈ l₁, key (s.buf j) ≠ k) :
    Inv (s.set i { s.buf i with refcnt := (s.buf i).refcnt + 1 } p (.want i k)) l := by
  subst hkey
  have hi := h.buf i
  have huse : InUse { s.buf i with refcnt := (s.buf i).refcnt + 1 } := .inl (Nat.succ_pos _)
  refine h.change changes_set (by rw [hp]; trivial) rfl h.ring h.all ?_ ?_ ?_ rfl ?_
  · -- an unused buffer before `i` would be one for the block
    exact h.ahead_change hl huse fun a ha hause e =>
      hfirst a ha (((h.buf a).unused hause).trans e.symm)
  · exact fun j hj huse e => hj (h.not_hidden hl hfirst huse e)
  · refine { hi with
      refcnt := h.refcnt changes_set ?_
      locked := fun q hq => ?_
      unused := fun hn => absurd huse hn }
    · simp only [hp, held, Phase.count, if_true]
      omega
    · refine (hi.locked q hq).imp id fun ⟨k, hk⟩ => ⟨k, ?_⟩
      have hqp : q ≠ p := by
        rintro rfl
        rw [hp] at hk
        cases hk
      rw [changes_set.phase, update_of_ne hqp, hk]
  · exact fun q _ hq => (h.phase q i hq).change rfl id fun hlock hv => ⟨hlock, hv⟩

theorem Inv.unused_free (h : Inv s l) (hi : (s.buf i).Unused) :
    (s.buf i).lock = none ∧ waiting s.phase i = 0 ∧ s.touched i = false := by
  have hr := (h.buf i).refcnt
  rw [hi.1] at hr
  have hlock : (s.buf i).lock = none := by
    cases e : (s.buf i).lock with
    | none => rfl
    | some q =>
      simp only [held, e, Option.isSome_some, if_true] at hr
      omega
  refine ⟨hlock, by omega, ?_⟩
  cases e : s.touched i with
  | false => rfl
  | true =>
    have := ((h.buf i).touched e).1
    rw [hlock] at this
    cases this

theorem Inv.recycle (h : Inv s l) (hp : s.phase p = .idle) (hmiss : ∀ j, key (s.buf j) ≠ k)
    (hi : (s.buf i).Unused) :
    Inv (s.set i { s.buf i with
      dev := k.1, blockno := k.2, valid := false, dirty := false, refcnt := 1 } p (.want i k)) l := by
  obtain ⟨hlock, hwait, htouched⟩ := h.unused_free hi
  obtain ⟨l₁, l₂, hl⟩ := List.append_of_mem (h.all i)
  have huse : InUse { s.buf i with
      dev := k.1, blockno := k.2, valid := false, dirty := false, refcnt := 1 } := .inl Nat.one_pos
  refine h.change changes_set (by rw [hp]; trivial) rfl h.ring h.all ?_ (fun j _ _ => hmiss j)
    ?_ rfl ?_
  · -- there is no unused buffer when the block is block 0 of device 0
    exact h.ahead_change hl huse fun a _ hause e =>
      hmiss a (((h.buf a).unused hause).trans e.symm)
  · refine ⟨h.refcnt changes_set ?_, nofun, fun q hq => ?_, fun ht => ?_, fun hn => absurd huse hn⟩
    · simp only [hp, hi.1, held, Phase.count, if_true]
      omega
    · rw [hlock] at hq
      cases hq
    · rw [htouched] at ht
      cases ht
  · -- whoever deals with `i` is counted, or has its lock
    intro q _ hq
    have hok := h.phase q i hq
    have hcount := count_le_waiting s.phase q i
    cases e : s.phase q with
    | idle => trivial
    | want j k' | put j =>
      rw [e] at hq hcount
      rw [Phase.count, if_pos (show j = i from hq)] at hcount
      omega
    | read j k' =>
      rw [e] at hok
      rw [hok.2.1] at hlock
      cases hlock

theorem Inv.acquire (h : Inv s l) (hp : s.phase p = .want i k) (hlock : (s.buf i).lock = none) :
    Inv (s.set i { s.buf i with lock := some p } p
      (if (s.buf i).valid then .idle else .read i k)) l := by
  have hi := h.buf i
  have hok : key (s.buf i) = k := h.ok hp rfl
  have huse : InUse (s.buf i) := by
    have hwait := count_le_waiting s.phase p i
    rw [hp, Phase.count, if_pos rfl] at hwait
    exact .inl (by rw [hi.refcnt]; omega)
  refine h.keep changes_set (by rw [hp]; rfl) ?_ h.ring h.all h.ahead huse huse rfl ?_ ?_ id ?_
  · split
    · trivial
    · rfl
  · refine { hi with
      refcnt := h.refcnt changes_set ?_
      locked := fun q hq => ?_
      touched := fun ht => ⟨rfl, (hi.touched ht).2⟩ }
    · have hcount : (if (s.buf i).valid then Phase.idle else .read i k).count i = 0 := by
        split <;> rfl
      rw [hcount]
      simp only [hp, hlock, held, Phase.count, Option.isSome_none, Option.isSome_some,
        Bool.false_eq_true, if_false, if_true]
    · cases hq
      rw [changes_set.phase, update_self]
      cases hv : (s.buf i).valid with
      | true => exact .inl rfl
      | false => exact .inr ⟨k, rfl⟩
  · cases hv : (s.buf i).valid with
    | true => trivial
    | false => exact ⟨hok, rfl, hv⟩
  · intro q _ hq
    rw [hlock] at hq
    cases hq

theorem Inv.read (h : Inv s l) (hp : s.phase p = .read i k) {d : Block} :
    Inv (s.set i { s.buf i with valid := true, data := d } p .idle) l := by
  obtain ⟨-, hlock, -⟩ := h.ok hp rfl
  have huse : InUse (s.buf i) := by
    refine .inl ?_
    rw [(h.buf i).refcnt, held, hlock]
    exact Nat.lt_of_lt_of_le Nat.one_pos (Nat.le_add_right _ _)
  refine h.valid changes_set (by rw [hp]; rfl) trivial h.ring h.all h.ahead huse rfl rfl
    (by rw [hp]; rfl) (fun ht => ((h.buf i).touched ht).1) trivial fun q hq e => ?_
  exact absurd (Option.some.inj (e.symm.trans hlock)) hq

/-- A change by the holder of the lock, who keeps it. -/
theorem Inv.work (h : Inv s l) (hp : s.phase p = .idle) (hlock : (s.buf i).lock = some p)
    (hc : Changes s s' i x t p .idle) (hlinks : s'.links = s.links) (hkey : key x = key (s.buf i))
    (hvalid : x.valid = true) (hlock' : x.lock = (s.buf i).lock)
    (hrefcnt : x.refcnt = (s.buf i).refcnt) : Inv s' l := by
  refine h.valid hc (by rw [hp]; trivial) trivial (by rw [hlinks]; exact h.ring) h.all h.ahead
    (inUse_of_valid (h.holder_valid hp hlock)) hvalid hkey ?_ (fun _ => ?_) trivial fun _ _ _ => ?_
  · rw [hrefcnt, hp, held, held, hlock']
  · rw [hlock', hlock]
    rfl
  · exact h.holder_valid hp hlock

theorem Inv.release (h : Inv s l) (hp : s.phase p = .idle) (hlock : (s.buf i).lock = some p)
    (ht : s.touched i = false) : Inv (s.set i { s.buf i with lock := none } p (.put i)) l := by
  have hvalid := h.holder_valid hp hlock
  refine h.valid changes_set (by rw [hp]; trivial) rfl h.ring h.all h.ahead
    (inUse_of_valid hvalid) hvalid rfl ?_ (fun e => ?_) hvalid fun _ _ _ => hvalid
  · simp only [hp, hlock, held, Phase.count, Option.isSome_none, Option.isSome_some,
      Bool.false_eq_true, if_false, if_true]
  · rw [ht] at e
    cases e

theorem Inv.put (h : Inv s l) (hp : s.phase p = .put i) : ∃ l', Inv (brelse s p i) l' := by
  have hvalid : (s.buf i).valid = true := h.ok hp rfl
  -- the list is as before, or has `i` at its front
  obtain ⟨l', hring, hall, hahead⟩ : ∃ l' : List (Fin NBUF),
      (brelse s p i).links.Linked none (l'.map some) ∧ (∀ j, j ∈ l') ∧
        l'.Pairwise (Ahead s.buf) := by
    unfold brelse
    dsimp only
    split
    · obtain ⟨l₁, l₂, rfl⟩ := List.append_of_mem (h.all i)
      refine ⟨i :: (l₁ ++ l₂), ?_, fun j => ?_, ?_⟩
      · have := h.ring
        rw [List.map_append, List.map_cons] at this
        rw [List.map_cons, List.map_append]
        exact this.toFront
      · exact List.perm_middle.mem_iff.mp (h.all j)
      · refine List.pairwise_cons.mpr ⟨fun _ _ => .inl (inUse_of_valid hvalid), ?_⟩
        exact h.ahead.sublist ((List.sublist_cons_self i l₂).append_left l₁)
    · exact ⟨l, h.ring, h.all, h.ahead⟩
  refine ⟨l', h.valid ⟨rfl, (update_eq_self i s.touched).symm, rfl⟩ (by rw [hp]; rfl) trivial hring
    hall hahead (inUse_of_valid hvalid) hvalid rfl ?_ (fun ht => ((h.buf i).touched ht).1) trivial
    fun _ _ _ => hvalid⟩
  have hwait := count_le_waiting s.phase p i
  have hrefcnt := (h.buf i).refcnt
  simp only [hp, held, Phase.count, if_true] at hwait hrefcnt ⊢
  omega

theorem step_inv {a : Act N} (h : Inv s l) (hs : step s a = some s') : ∃ l', Inv s' l' := by
  cases step_effect h hs with
  | hit hp hl hk hfirst => exact ⟨l, h.hit hp hl hk hfirst⟩
  | recycle hp hmiss hi => exact ⟨l, h.recycle hp hmiss hi⟩
  | acquire hp hlock => exact ⟨l, h.acquire hp hlock⟩
  | read hp => exact ⟨l, h.read hp⟩
  | store hp hlock =>
    exact ⟨l, h.work hp hlock ⟨rfl, rfl, rfl⟩ rfl rfl (h.holder_valid hp hlock) rfl rfl⟩
  | bwrite hp hlock => exact ⟨l, h.work hp hlock ⟨rfl, rfl, rfl⟩ rfl rfl rfl rfl rfl⟩
  | log_write hp hlock =>
    exact ⟨l, h.work hp hlock ⟨rfl, rfl, rfl⟩ rfl rfl (h.holder_valid hp hlock) rfl rfl⟩
  | release hp hlock ht => exact ⟨l, h.release hp hlock ht⟩
  | put hp => exact h.put hp

end DuckoUnix.Bcache
