import DuckoUnix.Bio.Cache
import Mathlib.Data.Fintype.Card

/-!
# What the buffer cache shows

`Ok` is the invariant of the cache: at most one buffer for a block, a buffer that is neither dirty
nor being changed agrees with the disk, and `refcnt` counts the holder of the lock and those who
wait for it. Under it the cache and the disk together are one array of blocks, `view`: what a
`bread` returns. Finding, locking and releasing a buffer do not change the view, nor which blocks
are dirty; a store changes it at one block, and `bwrite` brings the disk up to it there.
-/

namespace DuckoUnix.Bio

open Lib Function

variable {N : ℕ}

/-! ## The invariant -/

def waiting (want : Fin N → Option (Fin NBUF)) (i : Fin NBUF) : ℕ :=
  ∑ p, if want p = some i then 1 else 0

/-- A buffer, next to the disk, the process that is changing it and the number of those waiting. -/
structure BufOk (disk : ℕ → Block) (x : Buf N) (touched : Option (Fin N)) (waiting : ℕ) : Prop where
  clean : x.dev = ROOTDEV → x.valid = true → x.dirty = false → touched = none →
    x.data = disk x.blockno
  dirty : x.dirty = true → x.dev = ROOTDEV ∧ x.valid = true
  locked : x.lock.isSome = true → x.dev = ROOTDEV ∧ x.valid = true
  touched : ∀ p, touched = some p → x.lock = some p
  refcnt : x.refcnt = (if x.lock.isSome = true then 1 else 0) + waiting
  small : x.dev = ROOTDEV → x.valid = true → x.blockno < FSSIZE

structure Ok (m : Mem N) : Prop where
  order : ∀ i, i ∈ m.order
  key : ∀ i j b, (m.buf i).Is ROOTDEV b → (m.buf j).Is ROOTDEV b → i = j
  buf : ∀ i, BufOk m.disk (m.buf i) (m.touched i) (waiting m.want i)
  want : ∀ p i, m.want p = some i → (m.buf i).dev = ROOTDEV

/-- `m'` differs from `m` at buffer `i` only, which becomes `x`, and on disk at its block. -/
structure Changes (m m' : Mem N) (i : Fin NBUF) (x : Buf N) : Prop where
  buf : m'.buf = update m.buf i x
  touched : ∀ j, j ≠ i → m'.touched j = m.touched j
  waiting : ∀ j, j ≠ i → waiting m'.want j = waiting m.want j
  want : ∀ p j, j ≠ i → m'.want p = some j → m.want p = some j
  order : ∀ j, j ∈ m.order → j ∈ m'.order
  disk : ∀ c, ¬ x.Is ROOTDEV c → m'.disk c = m.disk c

section Changes

variable {m m' : Mem N} {i : Fin NBUF} {x : Buf N}

theorem Changes.self (hc : Changes m m' i x) : m'.buf i = x := by rw [hc.buf, update_self]

theorem Changes.other (hc : Changes m m' i x) {j : Fin NBUF} (e : j ≠ i) : m'.buf j = m.buf j := by
  rw [hc.buf, update_of_ne e]

theorem Changes.is (hc : Changes m m' i x) {b : ℕ} (hx : x.Is ROOTDEV b) :
    (m'.buf i).Is ROOTDEV b := by
  rwa [hc.self]

theorem Changes.is_not (hc : Changes m m' i x) {b : ℕ}
    (hn : ∀ j, j ≠ i → ¬ (m.buf j).Is ROOTDEV b) (hx : ¬ x.Is ROOTDEV b) (j : Fin NBUF) :
    ¬ (m'.buf j).Is ROOTDEV b := by
  by_cases e : j = i
  · rwa [e, hc.self]
  · rw [hc.other e]
    exact hn j e

/-- The invariant after a change of one buffer has to be shown for that buffer alone. -/
theorem Ok.changes (h : Ok m) (hc : Changes m m' i x) (hdev : x.dev = ROOTDEV)
    (hkey : ∀ j c, j ≠ i → x.Is ROOTDEV c → ¬ (m.buf j).Is ROOTDEV c)
    (hi : BufOk m'.disk x (m'.touched i) (Bio.waiting m'.want i)) : Ok m' where
  order := fun j => hc.order j (h.order j)
  key := by
    rw [hc.buf]
    exact unique_update (R := fun b (y : Buf N) => y.Is ROOTDEV b) h.key hkey
  buf := by
    intro j
    by_cases ej : j = i
    · rw [ej, hc.self]; exact hi
    · have hj := h.buf j
      rw [hc.other ej, hc.touched j ej, hc.waiting j ej]
      refine { hj with clean := fun hd hv hdirty ht => ?_ }
      rw [hj.clean hd hv hdirty ht, hc.disk]
      exact fun hi => hkey j _ ej hi ⟨hd, rfl⟩
  want := by
    intro p j hp
    by_cases ej : j = i
    · rw [ej, hc.self]; exact hdev
    · rw [hc.other ej]; exact h.want p j (hc.want p j ej hp)

/-- A change that leaves the buffer to its block. -/
theorem Ok.held (h : Ok m) (hc : Changes m m' i x) (hdev : x.dev = ROOTDEV)
    (hdev' : (m.buf i).dev = ROOTDEV) (hblock : x.blockno = (m.buf i).blockno)
    (hx : BufOk m'.disk x (m'.touched i) (Bio.waiting m'.want i)) : Ok m' :=
  h.changes hc hdev
    (fun j c ej hj hj' => ej (h.key j i c hj' ⟨hdev', hblock.symm.trans hj.2⟩)) hx

end Changes

theorem waiting_update (want : Fin N → Option (Fin NBUF)) (p : Fin N) (x : Option (Fin NBUF))
    (i : Fin NBUF) :
    waiting (update want p x) i + (if want p = some i then 1 else 0) =
      waiting want i + if x = some i then 1 else 0 :=
  sum_update_add (fun o : Option (Fin NBUF) => if o = some i then 1 else 0) want p x

theorem waiting_pos {want : Fin N → Option (Fin NBUF)} {p : Fin N} {i : Fin NBUF}
    (h : want p = some i) : 1 ≤ waiting want i := by
  have hu := waiting_update want p none i
  rw [if_pos h, if_neg nofun] at hu
  omega

theorem binit_ok (disk : ℕ → Block) : Ok (binit disk : Mem N) where
  order := fun i => List.mem_reverse.mpr (List.mem_finRange i)
  key := fun i j b hi => absurd hi.1 (by simp [binit, ROOTDEV])
  buf := fun i => by
    have hw : waiting (fun _ : Fin N => (none : Option (Fin NBUF))) i = 0 := by simp [waiting]
    constructor <;> simp [binit, ROOTDEV, hw]
  want := fun p i hp => by cases hp

/-! ## The view -/

def lookup (m : Mem N) (b : ℕ) : Option (Fin NBUF) :=
  (List.finRange NBUF).find? fun i => (m.buf i).Is ROOTDEV b

/-- What a `bread` of block `b` returns. -/
def view (m : Mem N) (b : ℕ) : Block :=
  match lookup m b with
  | some i => if (m.buf i).valid then (m.buf i).data else m.disk b
  | none => m.disk b

/-- Block `b` has a buffer with `B_DIRTY`. -/
def Dirty (m : Mem N) (b : ℕ) : Prop := ∃ i, (m.buf i).Is ROOTDEV b ∧ (m.buf i).dirty = true

theorem lookup_eq_some {m : Mem N} (h : Ok m) {b : ℕ} {i : Fin NBUF}
    (hi : (m.buf i).Is ROOTDEV b) : lookup m b = some i := by
  unfold lookup
  cases e : (List.finRange NBUF).find? fun i => (m.buf i).Is ROOTDEV b with
  | none =>
    rw [List.find?_eq_none] at e
    exact absurd (decide_eq_true hi) (e i (List.mem_finRange i))
  | some j =>
    have hj := List.find?_some e
    rw [h.key i j b hi (of_decide_eq_true hj)]

theorem lookup_eq_none {m : Mem N} {b : ℕ} (hn : ∀ i, ¬ (m.buf i).Is ROOTDEV b) :
    lookup m b = none := by
  unfold lookup
  rw [List.find?_eq_none]
  exact fun i _ => by simpa using hn i

theorem view_of_is {m : Mem N} (h : Ok m) {b : ℕ} {i : Fin NBUF} (hi : (m.buf i).Is ROOTDEV b) :
    view m b = if (m.buf i).valid then (m.buf i).data else m.disk b := by
  unfold view
  rw [lookup_eq_some h hi]

theorem view_of_none {m : Mem N} {b : ℕ} (hn : ∀ i, ¬ (m.buf i).Is ROOTDEV b) :
    view m b = m.disk b := by
  unfold view
  rw [lookup_eq_none hn]

theorem not_dirty_of_none {m : Mem N} {b : ℕ} (hn : ∀ i, ¬ (m.buf i).Is ROOTDEV b) :
    ¬ Dirty m b :=
  fun ⟨i, hi, _⟩ => hn i hi

theorem dirty_of_is {m : Mem N} (h : Ok m) {b : ℕ} {i : Fin NBUF} (hi : (m.buf i).Is ROOTDEV b) :
    Dirty m b ↔ (m.buf i).dirty = true := by
  constructor
  · rintro ⟨j, hj, hd⟩
    rw [h.key i j b hi hj]
    exact hd
  · exact fun hd => ⟨i, hi, hd⟩

/-- A block whose buffer is neither dirty nor being changed is as on disk. -/
theorem view_eq_disk {m : Mem N} (h : Ok m) {b : ℕ} (hd : ¬ Dirty m b)
    (ht : ∀ i, (m.buf i).Is ROOTDEV b → m.touched i = none) : view m b = m.disk b := by
  by_cases hi : ∃ i, (m.buf i).Is ROOTDEV b
  · obtain ⟨i, hi⟩ := hi
    rw [view_of_is h hi]
    split_ifs with hv
    · rw [dirty_of_is h hi, Bool.not_eq_true] at hd
      rw [(h.buf i).clean hi.1 hv hd (ht i hi), hi.2]
    · rfl
  · exact view_of_none (not_exists.mp hi)

/-- The two memories show the same blocks, on the same disk. -/
structure Same (m m' : Mem N) : Prop where
  disk : m'.disk = m.disk
  touched : m'.touched = m.touched
  view : view m' = view m
  dirty : Dirty m' = Dirty m

theorem Same.of_blocks {m m' : Mem N} (hdisk : m'.disk = m.disk) (htouched : m'.touched = m.touched)
    (h : ∀ b, Bio.view m' b = Bio.view m b ∧ (Dirty m' b ↔ Dirty m b)) : Same m m' :=
  ⟨hdisk, htouched, funext fun b => (h b).1, funext fun b => propext (h b).2⟩

theorem Same.trans {m m' m'' : Mem N} (h : Same m m') (h' : Same m' m'') : Same m m'' where
  disk := h'.disk.trans h.disk
  touched := h'.touched.trans h.touched
  view := h'.view.trans h.view
  dirty := h'.dirty.trans h.dirty

/-- Blocks other than those of buffer `i`, before and after, are not affected by its change. -/
theorem view_changes {m m' : Mem N} {i : Fin NBUF} {x : Buf N} (h : Ok m) (h' : Ok m')
    (hc : Changes m m' i x) {b : ℕ} (hi : ¬ (m.buf i).Is ROOTDEV b) (hx : ¬ x.Is ROOTDEV b) :
    view m' b = view m b ∧ (Dirty m' b ↔ Dirty m b) := by
  by_cases hj : ∃ j, (m.buf j).Is ROOTDEV b
  · obtain ⟨j, hj⟩ := hj
    have ej : j ≠ i := fun e => hi (e ▸ hj)
    have hj' : (m'.buf j).Is ROOTDEV b := by rw [hc.other ej]; exact hj
    rw [view_of_is h hj, view_of_is h' hj', dirty_of_is h hj, dirty_of_is h' hj', hc.other ej,
      hc.disk b hx]
    exact ⟨rfl, Iff.rfl⟩
  · have hn := not_exists.mp hj
    have hn' := hc.is_not (fun j _ => hn j) hx
    rw [view_of_none hn, view_of_none hn', hc.disk b hx]
    exact ⟨rfl, iff_of_false (not_dirty_of_none hn') (not_dirty_of_none hn)⟩

/-! ## Finding a buffer -/

section Waiting

variable {want : Fin N → Option (Fin NBUF)} {p : Fin N} {i : Fin NBUF}

theorem waiting_enter (hp : want p = none) :
    waiting (update want p (some i)) i = waiting want i + 1 := by
  have h := waiting_update want p (some i) i
  rw [hp, if_neg nofun, if_pos rfl] at h
  exact h

theorem waiting_leave (hp : want p = some i) :
    waiting (update want p none) i + 1 = waiting want i := by
  have h := waiting_update want p none i
  rw [if_pos hp, if_neg nofun] at h
  exact h

theorem waiting_other {j : Fin NBUF} {x : Option (Fin NBUF)} (hx : x ≠ some j)
    (hp : want p ≠ some j) : waiting (update want p x) j = waiting want j := by
  have h := waiting_update want p x j
  rw [if_neg hx, if_neg hp] at h
  exact h

end Waiting

theorem Ok.unused {m : Mem N} (h : Ok m) {i : Fin NBUF} (hi : (m.buf i).Unused) :
    (m.buf i).lock = none ∧ waiting m.want i = 0 ∧ m.touched i = none := by
  have hr := (h.buf i).refcnt
  rw [hi.1] at hr
  have hl : (m.buf i).lock = none := by
    by_contra hl
    rw [if_pos (Option.isSome_iff_ne_none.mpr hl)] at hr
    omega
  refine ⟨hl, by omega, ?_⟩
  by_contra ht
  obtain ⟨p, hp⟩ := Option.ne_none_iff_exists'.mp ht
  rw [(h.buf i).touched p hp] at hl
  cases hl

/-- What `bget` does: either a buffer of the block is there, or none is and an unused one is made
the buffer of the block. -/
theorem bget_cases {m m' : Mem N} {p : Fin N} {b : ℕ} {i : Fin NBUF} (h : Ok m)
    (e : bget m p ROOTDEV b = .ok (m', i)) :
    ((m.buf i).Is ROOTDEV b ∧
      m' = { m with
        buf := update m.buf i { m.buf i with refcnt := (m.buf i).refcnt + 1 }
        want := update m.want p (some i) }) ∨
    ((∀ j, ¬ (m.buf j).Is ROOTDEV b) ∧ (m.buf i).Unused ∧
      m' = { m with
        buf := update m.buf i { m.buf i with
          dev := ROOTDEV, blockno := b, valid := false, dirty := false, refcnt := 1 }
        want := update m.want p (some i) }) := by
  unfold bget at e
  split at e
  · next j hj =>
    cases e
    exact Or.inl ⟨by simpa using List.find?_some hj, rfl⟩
  · next hn =>
    rw [List.find?_eq_none] at hn
    split at e
    · next j hj =>
      cases e
      exact Or.inr ⟨fun k => by simpa using hn k (h.order k), by simpa using List.find?_some hj, rfl⟩
    · cases e

structure Found (m m' : Mem N) (p : Fin N) (b : ℕ) (i : Fin NBUF) : Prop where
  ok : Ok m'
  same : Same m m'
  is : (m'.buf i).Is ROOTDEV b
  want : m'.want = update m.want p (some i)
  /-- other buffers that are held stay as they are -/
  held : ∀ j, (m.buf j).lock.isSome = true → ¬ (m.buf j).Is ROOTDEV b → m'.buf j = m.buf j

/-- A step of `p`, who comes to wait for buffer `i` or has waited for it. -/
theorem changes_want {m : Mem N} {p : Fin N} {i : Fin NBUF} {x : Buf N} {w : Option (Fin NBUF)}
    (hp : ∀ j, j ≠ i → m.want p ≠ some j) (hw : ∀ j, j ≠ i → w ≠ some j) :
    Changes m { m with buf := update m.buf i x, want := update m.want p w } i x where
  buf := rfl
  touched := fun _ _ => rfl
  waiting := fun j ej => waiting_other (hw j ej) (hp j ej)
  want := by
    intro q j ej hq
    have hq : update m.want p w q = some j := hq
    by_cases e : q = p
    · rw [e, update_self] at hq
      exact absurd hq (hw j ej)
    · rwa [update_of_ne e] at hq
  order := fun _ => id
  disk := fun _ _ => rfl

theorem same_of_contents {m m' : Mem N} {i : Fin NBUF} {x : Buf N} (h : Ok m) (h' : Ok m')
    (hc : Changes m m' i x) (hdisk : m'.disk = m.disk) (htouched : m'.touched = m.touched)
    (hdev : x.dev = (m.buf i).dev) (hblock : x.blockno = (m.buf i).blockno)
    (hdirty : x.dirty = (m.buf i).dirty)
    (hdata : (m.buf i).dev = ROOTDEV →
      (if x.valid then x.data else m.disk (m.buf i).blockno) =
        if (m.buf i).valid then (m.buf i).data else m.disk (m.buf i).blockno) : Same m m' := by
  refine .of_blocks hdisk htouched fun b => ?_
  by_cases hi : (m.buf i).Is ROOTDEV b
  · have hi' := hc.is ⟨hdev.trans hi.1, hblock.trans hi.2⟩
    rw [view_of_is h hi, view_of_is h' hi', dirty_of_is h hi, dirty_of_is h' hi', hc.self, hdirty,
      hdisk, ← hi.2]
    exact ⟨hdata hi.1, Iff.rfl⟩
  · exact view_changes h h' hc hi fun hx => hi ⟨hdev.symm.trans hx.1, hblock.symm.trans hx.2⟩

theorem some_ne_of_ne {i : Fin NBUF} (j : Fin NBUF) (e : j ≠ i) : some i ≠ some j :=
  fun h => e (Option.some.inj h).symm

theorem bget_found {m m' : Mem N} {p : Fin N} {b : ℕ} {i : Fin NBUF} (h : Ok m)
    (hp : m.want p = none) (e : bget m p ROOTDEV b = .ok (m', i)) : Found m m' p b i := by
  have hnone : ∀ j, j ≠ i → m.want p ≠ some j := fun j _ => by rw [hp]; exact nofun
  rcases bget_cases h e with ⟨hi, rfl⟩ | ⟨hn, hu, rfl⟩
  · have hc := changes_want (x := { m.buf i with refcnt := (m.buf i).refcnt + 1 }) hnone
      some_ne_of_ne
    have hb := h.buf i
    have h' := h.held hc hi.1 hi.1 rfl { hb with
      refcnt := by
        show (m.buf i).refcnt + 1 = _ + waiting (update m.want p (some i)) i
        rw [waiting_enter hp, hb.refcnt, Nat.add_assoc] }
    exact ⟨h', same_of_contents h h' hc rfl rfl rfl rfl rfl fun _ => rfl, hc.is hi, rfl,
      fun j _ hj => hc.other fun ej => hj (ej ▸ hi)⟩
  · obtain ⟨hlock, hwait, htouch⟩ := h.unused hu
    have hc := changes_want (x := { m.buf i with
      dev := ROOTDEV, blockno := b, valid := false, dirty := false, refcnt := 1 }) hnone
      some_ne_of_ne
    have h' := h.changes hc rfl (fun j c _ hj hj' => hn j ⟨hj'.1, hj'.2.trans hj.2.symm⟩) {
      clean := nofun
      dirty := nofun
      locked := fun hl => by rw [hlock] at hl; cases hl
      touched := fun q hq => by
        have hq : m.touched i = some q := hq
        rw [htouch] at hq
        cases hq
      refcnt := by
        show 1 = _ + waiting (update m.want p (some i)) i
        rw [waiting_enter hp, hwait, hlock]
        rfl
      small := nofun }
    refine ⟨h', .of_blocks rfl rfl fun c => ?_, hc.is ⟨rfl, rfl⟩, rfl,
      fun j hj _ => hc.other fun ej => ?_⟩
    · by_cases ec : b = c
      · -- the block that gets the buffer was not cached
        subst ec
        have hi := hc.is (b := b) ⟨rfl, rfl⟩
        rw [view_of_is h' hi, dirty_of_is h' hi, hc.self, view_of_none hn]
        exact ⟨rfl, iff_of_false nofun (not_dirty_of_none hn)⟩
      · by_cases hc0 : (m.buf i).Is ROOTDEV c
        · -- the block that loses it is as on disk
          have hd : ¬ Dirty m c := by rw [dirty_of_is h hc0, hu.2]; nofun
          have hn' := hc.is_not (fun j ej hj => ej (h.key j i c hj hc0)) fun hx => ec hx.2
          rw [view_of_none hn', view_eq_disk h hd fun j hj => by rw [h.key j i c hj hc0, htouch]]
          exact ⟨rfl, iff_of_false (not_dirty_of_none hn') hd⟩
        · exact view_changes h h' hc hc0 fun hx => ec hx.2
    · rw [ej, hlock] at hj
      cases hj

/-! ## Locking and reading it -/

/-- `bread` after `bget`: the lock was free; the data is read unless it was there. -/
theorem lockRead_eq {m m' : Mem N} {p : Fin N} {i : Fin NBUF} (h : Ok m)
    (e : lockRead m p i = .ok m') :
    (m.buf i).lock = none ∧ ((m.buf i).valid = false → (m.buf i).blockno < FSSIZE) ∧
    m' = { m with
      buf := update m.buf i { m.buf i with
        lock := some p
        valid := true
        data := if (m.buf i).valid then (m.buf i).data else m.disk (m.buf i).blockno }
      want := update m.want p none } := by
  unfold lockRead acquiresleep at e
  split_ifs at e with hl
  · rw [ok_bind] at e
    simp only [update_self] at e
    by_cases hv : (m.buf i).valid = true
    · rw [if_pos hv] at e
      cases e
      refine ⟨hl, fun hf => absurd (hv.symm.trans hf) nofun, ?_⟩
      simp only [hv, if_true]
    · have hv' : (m.buf i).valid = false := by simpa using hv
      have hd : (m.buf i).dirty = false := by
        by_contra hd
        exact hv ((h.buf i).dirty (by simpa using hd)).2
      rw [if_neg hv] at e
      unfold iderw at e
      simp only [update_self, ne_eq, not_true_eq_false, if_false, hv', hd,
        Bool.false_eq_true, false_and, update_idem] at e
      split_ifs at e with hs
      cases e
      exact ⟨hl, fun _ => by omega, by simp [hv', hd]⟩
  · cases e

structure Locked (m m' : Mem N) (p : Fin N) (i : Fin NBUF) : Prop where
  ok : Ok m'
  same : Same m m'
  is : ∀ b, (m.buf i).Is ROOTDEV b → (m'.buf i).Is ROOTDEV b
  lock : (m'.buf i).lock = some p
  want : m'.want = update m.want p none
  other : ∀ j, j ≠ i → m'.buf j = m.buf j

theorem lockRead_locked {m m' : Mem N} {p : Fin N} {i : Fin NBUF} (h : Ok m)
    (hp : m.want p = some i) (e : lockRead m p i = .ok m') : Locked m m' p i := by
  obtain ⟨hl, hs, rfl⟩ := lockRead_eq h e
  have hc := changes_want (x := { m.buf i with
    lock := some p
    valid := true
    data := if (m.buf i).valid then (m.buf i).data else m.disk (m.buf i).blockno })
    (hp ▸ some_ne_of_ne) fun j _ => (Option.some_ne_none j).symm
  have hb := h.buf i
  have hdev := h.want p i hp
  have h' := h.held hc hdev hdev rfl {
    clean := fun hd _ hdirty ht => by
      show (if (m.buf i).valid then (m.buf i).data else m.disk (m.buf i).blockno) = _
      split_ifs with hv
      · exact hb.clean hd hv hdirty ht
      · rfl
    dirty := fun _ => ⟨hdev, rfl⟩
    locked := fun _ => ⟨hdev, rfl⟩
    touched := fun q hq => by
      have hq := hb.touched q hq
      rw [hl] at hq
      cases hq
    refcnt := by
      have hr := hb.refcnt
      rw [hl, if_neg nofun, ← waiting_leave hp] at hr
      show (m.buf i).refcnt = 1 + waiting (update m.want p none) i
      omega
    small := fun hd _ => by
      by_cases hv : (m.buf i).valid = true
      · exact hb.small hd hv
      · exact hs (by simpa using hv) }
  exact ⟨h', same_of_contents h h' hc rfl rfl rfl rfl rfl fun _ => rfl,
    fun b => hc.is, by rw [hc.self], rfl, fun _ => hc.other⟩

structure Read (m m' : Mem N) (p : Fin N) (b : ℕ) (i : Fin NBUF) : Prop where
  ok : Ok m'
  same : Same m m'
  is : (m'.buf i).Is ROOTDEV b
  lock : (m'.buf i).lock = some p
  want : m'.want = m.want
  held : ∀ j, (m.buf j).lock.isSome = true → ¬ (m.buf j).Is ROOTDEV b → m'.buf j = m.buf j

theorem bread_read {m m' : Mem N} {p : Fin N} {b : ℕ} {i : Fin NBUF} (h : Ok m)
    (hp : m.want p = none) (e : bread m p b = .ok (m', i)) : Read m m' p b i := by
  unfold bread at e
  obtain ⟨⟨m₁, j⟩, hget, e⟩ := bind_eq_ok.mp e
  obtain ⟨m₂, hlock, e⟩ := bind_eq_ok.mp e
  cases e
  have hf := bget_found h hp hget
  have hl := lockRead_locked hf.ok (by rw [hf.want, update_self]) hlock
  refine ⟨hl.ok, hf.same.trans hl.same, hl.is b hf.is, hl.lock, ?_, fun k hk hkb => ?_⟩
  · rw [hl.want, hf.want, update_idem, ← hp, update_eq_self]
  · have hk' := hf.held k hk hkb
    rw [hl.other k fun ek => hkb ?_, hk']
    rw [← hk', ek]
    exact hf.is

theorem Read.data {m m' : Mem N} {p : Fin N} {b : ℕ} {i : Fin NBUF} (h : Read m m' p b i) :
    (m'.buf i).data = view m b := by
  rw [← h.same.view, view_of_is h.ok h.is, if_pos ((h.ok.buf i).locked (by rw [h.lock]; rfl)).2]

/-! ## Changing and releasing it -/

theorem changes_held {m m' : Mem N} {i : Fin NBUF} {x : Buf N}
    (hbuf : m'.buf = update m.buf i x) (hwant : m'.want = m.want)
    (htouched : ∀ j, j ≠ i → m'.touched j = m.touched j) (horder : ∀ j, j ∈ m.order → j ∈ m'.order)
    (hdisk : ∀ c, ¬ x.Is ROOTDEV c → m'.disk c = m.disk c) : Changes m m' i x :=
  ⟨hbuf, htouched, fun _ _ => by rw [hwant], fun _ _ _ hq => by rwa [hwant] at hq, horder, hdisk⟩

theorem brelse_ok {m m' : Mem N} {p : Fin N} {i : Fin NBUF} (h : Ok m)
    (ht : m.touched i ≠ some p) (e : brelse m p i = .ok m') :
    Ok m' ∧ Same m m' ∧ m'.want = m.want := by
  unfold brelse at e
  split_ifs at e with hl
  cases e
  have hl : (m.buf i).lock = some p := not_not.mp hl
  have horder : ∀ j, j ∈ m.order →
      j ∈ if (m.buf i).refcnt - 1 = 0 then i :: m.order.erase i else m.order := by
    intro j hj
    split_ifs
    · by_cases ej : j = i
      · rw [ej]; exact List.mem_cons_self
      · exact List.mem_cons_of_mem _ ((List.mem_erase_of_ne ej).mpr hj)
    · exact hj
  have hc : Changes m { m with
      buf := update m.buf i { m.buf i with lock := none, refcnt := (m.buf i).refcnt - 1 }
      order := _ } i _ := changes_held rfl rfl (fun _ _ => rfl) horder fun _ _ => rfl
  have hb := h.buf i
  have hv := hb.locked (by rw [hl]; rfl)
  have h' := h.held hc hv.1 hv.1 rfl { hb with
    locked := nofun
    touched := fun q hq => by
      have hq' := hb.touched q hq
      rw [hl] at hq'
      cases hq'
      exact absurd hq ht
    refcnt := by
      have hr := hb.refcnt
      rw [hl, Option.isSome_some, if_pos rfl] at hr
      show (m.buf i).refcnt - 1 = 0 + waiting m.want i
      omega }
  exact ⟨h', same_of_contents h h' hc rfl rfl rfl rfl rfl fun _ => rfl, rfl⟩

/-- The memory after the holder `p` has changed the data of buffer `i`. -/
def modify (m : Mem N) (p : Fin N) (i : Fin NBUF) (d : Block) : Mem N :=
  { memmove m i d with touched := update m.touched i (some p) }

def mark (m : Mem N) (i : Fin NBUF) : Mem N :=
  { m with
    buf := update m.buf i { m.buf i with dirty := true }
    touched := update m.touched i none }

/-- The memory after a step, given by its effect on the view and on the dirty blocks. -/
structure Writes (m m' : Mem N) (view' disk' : ℕ → Block) (dirty' : ℕ → Prop) : Prop where
  ok : Ok m'
  disk : m'.disk = disk'
  view : view m' = view'
  dirty : Dirty m' = dirty'
  want : m'.want = m.want

theorem Writes.same {m m' m'' : Mem N} {view' disk' : ℕ → Block} {dirty' : ℕ → Prop}
    (h : Writes m m' view' disk' dirty') (hok : Ok m'') (hs : Same m' m'')
    (hwant : m''.want = m'.want) : Writes m m'' view' disk' dirty' :=
  ⟨hok, hs.disk.trans h.disk, hs.view.trans h.view, hs.dirty.trans h.dirty, hwant.trans h.want⟩

theorem Changes.writes {m m' : Mem N} {i : Fin NBUF} {x : Buf N} {b : ℕ} {view' : ℕ → Block}
    {dirty' : ℕ → Prop} (hc : Changes m m' i x) (h : Ok m) (h' : Ok m')
    (hb : (m.buf i).Is ROOTDEV b) (hx : x.Is ROOTDEV b) (hv : x.valid = true)
    (hwant : m'.want = m.want) (hview : ∀ c, c ≠ b → view' c = view m c)
    (hdirty : ∀ c, c ≠ b → (dirty' c ↔ Dirty m c)) (hview' : view' b = x.data)
    (hdirty' : dirty' b ↔ x.dirty = true) : Writes m m' view' m'.disk dirty' := by
  have hall : ∀ c, view m' c = view' c ∧ (Dirty m' c ↔ dirty' c) := by
    intro c
    by_cases ec : c = b
    · have hi' := hc.is hx
      rw [ec, view_of_is h' hi', dirty_of_is h' hi', hc.self, if_pos hv, hview', hdirty']
      exact ⟨rfl, Iff.rfl⟩
    · rw [hview c ec, hdirty c ec]
      exact view_changes h h' hc (fun e => ec (e.2.symm.trans hb.2))
        fun e => ec (e.2.symm.trans hx.2)
  exact ⟨h', rfl, funext fun c => (hall c).1, funext fun c => propext (hall c).2, hwant⟩

theorem modify_writes {m : Mem N} {p : Fin N} {i : Fin NBUF} {b : ℕ} (h : Ok m)
    (hl : (m.buf i).lock = some p) (hb : (m.buf i).Is ROOTDEV b) (d : Block) :
    Writes m (modify m p i d) (update (view m) b d) m.disk (Dirty m) := by
  have hti : (modify m p i d).touched i = some p := update_self ..
  have hc : Changes m (modify m p i d) i { m.buf i with data := d } :=
    changes_held rfl rfl (fun j ej => update_of_ne ej _ _) (fun _ => id) fun _ _ => rfl
  have hx := h.buf i
  have hv := hx.locked (by rw [hl]; rfl)
  have h' := h.held hc hv.1 hv.1 rfl (by
    rw [hti]
    exact { hx with clean := nofun, touched := fun q hq => by cases hq; exact hl })
  exact hc.writes h h' hb hb hv.2 rfl (fun c ec => update_of_ne ec _ _)
    (fun _ _ => Iff.rfl) (update_self ..) (dirty_of_is h hb)

theorem mark_writes {m : Mem N} {p : Fin N} {i : Fin NBUF} {b : ℕ} (h : Ok m)
    (hl : (m.buf i).lock = some p) (hb : (m.buf i).Is ROOTDEV b) :
    Writes m (mark m i) (view m) m.disk fun c => Dirty m c ∨ c = b := by
  have hti : (mark m i).touched i = none := update_self ..
  have hc : Changes m (mark m i) i { m.buf i with dirty := true } :=
    changes_held rfl rfl (fun j ej => update_of_ne ej _ _) (fun _ => id) fun _ _ => rfl
  have hx := h.buf i
  have hv := hx.locked (by rw [hl]; rfl)
  have h' := h.held hc hv.1 hv.1 rfl (by
    rw [hti]
    exact { hx with clean := nofun, dirty := fun _ => hv, touched := nofun })
  exact hc.writes h h' hb hb hv.2 rfl (fun _ _ => rfl) (fun c ec => or_iff_left ec)
    (by rw [view_of_is h hb, if_pos hv.2]) (iff_of_true (Or.inr rfl) rfl)

theorem bwrite_writes {m m' : Mem N} {p : Fin N} {i : Fin NBUF} {b : ℕ} {d : Block} (h : Ok m)
    (hl : (m.buf i).lock = some p) (hb : (m.buf i).Is ROOTDEV b)
    (e : bwrite (memmove m i d) p i = .ok m') :
    Writes m m' (update (view m) b d) (update m.disk b d)
      (fun c => Dirty m c ∧ c ≠ b) ∧
    m'.touched = m.touched := by
  unfold bwrite iderw memmove at e
  simp only [update_self, update_idem, hl, ne_eq, not_true_eq_false, if_false,
    Bool.true_eq_false, and_false, if_true] at e
  split_ifs at e with hs
  cases e
  obtain ⟨-, rfl⟩ := hb
  have hbuf := h.buf i
  have hv := hbuf.locked (by rw [hl]; rfl)
  have hc : Changes m { m with
      buf := update m.buf i { m.buf i with data := d, valid := true, dirty := false, lock := some p }
      disk := update m.disk (m.buf i).blockno d } i _ :=
    changes_held rfl rfl (fun _ _ => rfl) (fun _ => id) fun c hc =>
      update_of_ne (fun ec => hc ⟨hv.1, ec.symm⟩) _ _
  have h' := h.held hc hv.1 hv.1 rfl { hbuf with
    clean := fun _ _ _ _ => (update_self (m.buf i).blockno d m.disk).symm
    dirty := nofun
    locked := fun _ => ⟨hv.1, rfl⟩
    touched := fun q hq => hl.symm.trans (hbuf.touched q hq)
    refcnt := by have hr := hbuf.refcnt; rwa [hl] at hr
    small := fun _ _ => Nat.lt_of_not_le hs }
  exact ⟨hc.writes h h' ⟨hv.1, rfl⟩ ⟨hv.1, rfl⟩ rfl rfl (fun c ec => update_of_ne ec _ _)
    (fun c ec => and_iff_left ec) (update_self ..) (iff_of_false (fun hd => hd.2 rfl) nofun), rfl⟩

/-- There are no more blocks with a buffer than there are buffers. -/
theorem length_le_NBUF {m : Mem N} {l : List ℕ} (hn : l.Nodup)
    (hl : ∀ b ∈ l, ∃ i, (m.buf i).Is ROOTDEV b) : l.length ≤ NBUF := by
  have hsub : l.toFinset ⊆ Finset.univ.image fun i => (m.buf i).blockno := by
    intro b hb
    obtain ⟨i, hi⟩ := hl b (List.mem_toFinset.mp hb)
    exact Finset.mem_image.mpr ⟨i, Finset.mem_univ i, hi.2⟩
  calc l.length = l.toFinset.card := (List.toFinset_card_of_nodup hn).symm
    _ ≤ (Finset.univ.image fun i => (m.buf i).blockno).card := Finset.card_le_card hsub
    _ ≤ (Finset.univ : Finset (Fin NBUF)).card := Finset.card_image_le
    _ = NBUF := by rw [Finset.card_univ, Fintype.card_fin]

end DuckoUnix.Bio
