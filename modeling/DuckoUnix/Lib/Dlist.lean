import Mathlib.Data.List.Basic
import Mathlib.Data.List.Nodup
import Mathlib.Logic.Function.Basic
import Mathlib.Logic.Function.Iterate

/-!
# Circular doubly linked lists

Nodes with a `next` and a `prev` pointer, in a ring through a head node. `Seg a l b` says that the
pointers lead from `a` through the nodes `l` to `b` and back; `Linked h l` is a ring with head `h`
whose other nodes are `l`, each once. `pushFront` links a node in behind the head, `unlink` takes
one out; both are the assignments a program makes, in order.
-/

namespace Lib

open Function

/-- The pointers of all nodes. -/
structure Links (α : Type*) where
  next : α → α
  prev : α → α

namespace Links

variable {α : Type*} {L L' : Links α} {a b c h x : α} {l r : List α}

/-- From `a` through `l` to `b`. -/
def Seg (L : Links α) : α → List α → α → Prop
  | a, [], b => L.next a = b ∧ L.prev b = a
  | a, x :: l, b => L.next a = x ∧ L.prev x = a ∧ L.Seg x l b

/-- A ring with head `h` and the nodes `l`. -/
structure Linked (L : Links α) (h : α) (l : List α) : Prop where
  seg : L.Seg h l h
  nodup : (h :: l).Nodup

/-! ## Segments -/

theorem seg_append : L.Seg a (l ++ x :: r) b ↔ L.Seg a l x ∧ L.Seg x r b := by
  induction l generalizing a with
  | nil =>
    rw [List.nil_append, Seg, Seg, and_assoc]
  | cons y l ih =>
    rw [List.cons_append, Seg, Seg, ih, and_assoc, and_assoc]

theorem Seg.congr (h : L.Seg a l b) (hnext : ∀ x ∈ a :: l, L'.next x = L.next x)
    (hprev : ∀ x ∈ l ++ [b], L'.prev x = L.prev x) : L'.Seg a l b := by
  induction l generalizing a with
  | nil =>
    obtain ⟨h1, h2⟩ := h
    exact ⟨(hnext a List.mem_cons_self).trans h1, (hprev b List.mem_cons_self).trans h2⟩
  | cons y l ih =>
    obtain ⟨h1, h2, h3⟩ := h
    refine ⟨(hnext a List.mem_cons_self).trans h1, (hprev y List.mem_cons_self).trans h2,
      ih h3 (fun x hx => hnext x (List.mem_cons_of_mem _ hx)) fun x hx =>
        hprev x (List.mem_cons_of_mem _ hx)⟩

theorem Seg.next_mem (h : L.Seg a l b) : L.next a ∈ l ++ [b] := by
  cases l with
  | nil => rw [h.1]; exact List.mem_cons_self
  | cons y l => rw [h.1]; exact List.mem_cons_self

theorem Seg.prev_mem (h : L.Seg a l b) : L.prev b ∈ a :: l := by
  induction l generalizing a with
  | nil => rw [h.2]; exact List.mem_cons_self
  | cons y l ih => exact List.mem_cons_of_mem _ (ih h.2.2)

/-- The pointers with `next` and `prev` exchanged. -/
def flip (L : Links α) : Links α := ⟨L.prev, L.next⟩

theorem Seg.reverse (h : L.Seg a l b) : L.flip.Seg b l.reverse a := by
  induction l generalizing a with
  | nil => exact ⟨h.2, h.1⟩
  | cons y l ih =>
    rw [List.reverse_cons, seg_append]
    exact ⟨ih h.2.2, h.2.1, h.1⟩

theorem Linked.flip (h : L.Linked c l) : L.flip.Linked c l.reverse := by
  refine ⟨h.seg.reverse, ?_⟩
  have := h.nodup
  rw [List.nodup_cons] at this ⊢
  exact ⟨by rw [List.mem_reverse]; exact this.1, List.nodup_reverse.mpr this.2⟩

/-- In a ring, `prev` undoes `next`. -/
theorem Seg.prev_next (h : L.Seg a l b) (hx : x ∈ a :: l) : L.prev (L.next x) = x := by
  induction l generalizing a with
  | nil =>
    rw [List.mem_singleton.mp hx, h.1, h.2]
  | cons y l ih =>
    rcases List.mem_cons.mp hx with rfl | hx
    · rw [h.1, h.2.1]
    · exact ih h.2.2 hx

/-- After all nodes, `next` is back at the head. -/
theorem Seg.iterate_next (hs : L.Seg a l b) : L.next^[l.length + 1] a = b := by
  induction l generalizing a with
  | nil => exact hs.1
  | cons y l ih =>
    rw [List.length_cons, Function.iterate_succ_apply, hs.1]
    exact ih hs.2.2

/-! ## Following the pointers -/

variable [DecidableEq α]

/-- The nodes from `x` on until the head `h` is met, `n` of them at most. -/
def walk (next : α → α) (h : α) : ℕ → α → List α
  | 0, _ => []
  | n + 1, x => if x = h then [] else x :: walk next h n (next x)

theorem Seg.walk_eq {n : ℕ} (hs : L.Seg a l h) (hh : h ∉ l) (hn : l.length < n) :
    walk L.next h n (L.next a) = l := by
  induction l generalizing a n with
  | nil =>
    obtain ⟨m, rfl⟩ : ∃ m, n = m + 1 := ⟨n - 1, by simp at hn; omega⟩
    rw [hs.1, walk, if_pos rfl]
  | cons y l ih =>
    obtain ⟨m, rfl⟩ : ∃ m, n = m + 1 := ⟨n - 1, by simp at hn; omega⟩
    rw [List.mem_cons, not_or] at hh
    rw [List.length_cons] at hn
    rw [hs.1, walk, if_neg (Ne.symm hh.1), ih hs.2.2 hh.2 (by omega)]

/-- Going round by `next` visits the nodes in order. -/
theorem Linked.walk_next {n : ℕ} (hl : L.Linked h l) (hn : l.length < n) :
    walk L.next h n (L.next h) = l :=
  hl.seg.walk_eq (List.nodup_cons.mp hl.nodup).1 hn

/-- Going round by `prev` visits them in the opposite order. -/
theorem Linked.walk_prev {n : ℕ} (hl : L.Linked h l) (hn : l.length < n) :
    walk L.prev h n (L.prev h) = l.reverse :=
  hl.flip.walk_next (by rwa [List.length_reverse])

/-! ## Linking a node in -/

/-- `b->next = h->next; b->prev = h; h->next->prev = b; h->next = b` -/
def pushFront (L : Links α) (h b : α) : Links α where
  next := update (update L.next b (L.next h)) h b
  prev := update (update L.prev b h) (update L.next b (L.next h) h) b

theorem Linked.pushFront (hl : L.Linked h l) (hb : b ∉ h :: l) :
    (L.pushFront h b).Linked h (b :: l) := by
  obtain ⟨hbh, hbl⟩ : b ≠ h ∧ b ∉ l := by
    rwa [List.mem_cons, not_or] at hb
  obtain ⟨hhl, hnodup⟩ := List.nodup_cons.mp hl.nodup
  have hfirst : L.next h ≠ b := fun e => by
    have := hl.seg.next_mem
    rw [e, List.mem_append, List.mem_singleton] at this
    exact this.elim hbl hbh
  have hnext : ∀ x, (L.pushFront h b).next x =
      if x = h then b else if x = b then L.next h else L.next x := fun x => by
    show update (update L.next b (L.next h)) h b x = _
    rw [update_apply, update_apply]
  have hprev : ∀ x, (L.pushFront h b).prev x =
      if x = L.next h then b else if x = b then h else L.prev x := fun x => by
    show update (update L.prev b h) (update L.next b (L.next h) h) b x = _
    rw [update_of_ne hbh.symm, update_apply, update_apply]
  refine ⟨⟨?_, ?_, ?_⟩, ?_⟩
  · rw [hnext, if_pos rfl]
  · rw [hprev, if_neg hfirst.symm, if_pos rfl]
  · have hseg := hl.seg
    cases l with
    | nil =>
      obtain ⟨h1, -⟩ := hseg
      refine ⟨?_, ?_⟩
      · rw [hnext, if_neg hbh, if_pos rfl, h1]
      · rw [hprev, h1, if_pos rfl]
    | cons y l =>
      obtain ⟨h1, -, h3⟩ := hseg
      rw [List.mem_cons, not_or] at hhl hbl
      obtain ⟨hyl, -⟩ := List.nodup_cons.mp hnodup
      refine ⟨?_, ?_, h3.congr (fun x hx => ?_) fun x hx => ?_⟩
      · rw [hnext, if_neg hbh, if_pos rfl, h1]
      · rw [hprev, h1, if_pos rfl]
      · have hxh : x ≠ h := by
          rintro rfl
          exact (List.mem_cons.mp hx).elim hhl.1 hhl.2
        have hxb : x ≠ b := by
          rintro rfl
          exact (List.mem_cons.mp hx).elim hbl.1 hbl.2
        rw [hnext, if_neg hxh, if_neg hxb]
      · rw [List.mem_append, List.mem_singleton] at hx
        have hxy : x ≠ y := by
          rintro rfl
          exact hx.elim hyl fun e => hhl.1 e.symm
        have hxb : x ≠ b := by
          rintro rfl
          exact hx.elim hbl.2 hbh
        rw [hprev, h1, if_neg hxy, if_neg hxb]
  · refine List.nodup_cons.mpr ⟨?_, List.nodup_cons.mpr ⟨hbl, hnodup⟩⟩
    rw [List.mem_cons, not_or]
    exact ⟨hbh.symm, hhl⟩

theorem Linked.pushAll {xs : List α} (hl : L.Linked h l) (hn : (h :: (xs.reverse ++ l)).Nodup) :
    (xs.foldl (fun L x => L.pushFront h x) L).Linked h (xs.reverse ++ l) := by
  induction xs generalizing L l with
  | nil => exact hl
  | cons x xs ih =>
    rw [List.reverse_cons, List.append_assoc, List.singleton_append] at hn ⊢
    refine ih (hl.pushFront fun hx => ?_) hn
    rw [List.nodup_cons, List.mem_append, List.mem_cons, not_or, not_or] at hn
    rcases List.mem_cons.mp hx with e | hx
    · exact hn.1.2.1 e.symm
    · exact (List.nodup_cons.mp (List.nodup_append.mp hn.2).2.1).1 hx

/-! ## Taking a node out -/

/-- `b->next->prev = b->prev; b->prev->next = b->next` -/
def unlink (L : Links α) (b : α) : Links α where
  next := update L.next (update L.prev (L.next b) (L.prev b) b) (L.next b)
  prev := update L.prev (L.next b) (L.prev b)

theorem Seg.unlink (hs : L.Seg a (l ++ b :: r) c) (hn : (a :: (l ++ b :: r)).Nodup)
    (hc : c ∉ l ++ b :: r) : (L.unlink b).Seg a (l ++ r) c := by
  have hr := (seg_append.mp hs).2
  have hbc : b ≠ c := by
    rintro rfl
    exact hc (List.mem_append.mpr (.inr List.mem_cons_self))
  have hself : L.next b ≠ b := fun e => by
    have hmem := hr.next_mem
    rw [e, List.mem_append, List.mem_singleton] at hmem
    have hbr := (List.nodup_append.mp (List.nodup_cons.mp hn).2).2.1
    exact hmem.elim (List.nodup_cons.mp hbr).1 hbc
  have hnext : ∀ x, (L.unlink b).next x = if x = L.prev b then L.next b else L.next x := fun x => by
    show update L.next (update L.prev (L.next b) (L.prev b) b) (L.next b) x = _
    rw [update_of_ne hself.symm, update_apply]
  have hprev : ∀ x, (L.unlink b).prev x = if x = L.next b then L.prev b else L.prev x := fun x => by
    show update L.prev (L.next b) (L.prev b) x = _
    rw [update_apply]
  induction l generalizing a with
  | nil =>
    obtain ⟨-, h2, h3⟩ := hs
    cases r with
    | nil =>
      refine ⟨?_, ?_⟩
      · rw [hnext, h2, if_pos rfl, h3.1]
      · rw [hprev, h3.1, if_pos rfl, h2]
    | cons z r =>
      obtain ⟨h4, -, h5⟩ := h3
      rw [List.nil_append, List.nodup_cons, List.nodup_cons, List.nodup_cons] at hn
      obtain ⟨ha, -, hz, -⟩ := hn
      refine ⟨?_, ?_, h5.congr (fun x hx => ?_) fun x hx => ?_⟩
      · rw [hnext, h2, if_pos rfl, h4]
      · rw [hprev, h4, if_pos rfl, h2]
      · have hxa : x ≠ a := by
          rintro rfl
          exact ha (List.mem_cons_of_mem _ hx)
        rw [hnext, h2, if_neg hxa]
      · rw [List.mem_append, List.mem_singleton] at hx
        have hxz : x ≠ z := by
          rintro rfl
          refine hx.elim hz fun e => hc ?_
          rw [← e]
          exact List.mem_cons_of_mem _ List.mem_cons_self
        rw [hprev, h4, if_neg hxz]
  | cons y l ih =>
    obtain ⟨h1, h2, h3⟩ := hs
    rw [List.cons_append, List.nodup_cons, List.nodup_cons] at hn
    obtain ⟨ha, hy, hn⟩ := hn
    rw [List.cons_append, List.mem_cons, not_or] at hc
    have hpb := (seg_append.mp h3).1.prev_mem
    have hnb := hr.next_mem
    have hap : a ≠ L.prev b := fun e => by
      rw [← e] at hpb
      refine ha (List.mem_cons.mpr ((List.mem_cons.mp hpb).imp id fun hm => ?_))
      exact List.mem_append.mpr (.inl hm)
    have hyn : y ≠ L.next b := fun e => by
      rw [← e, List.mem_append, List.mem_singleton] at hnb
      refine hnb.elim (fun hm => hy ?_) fun hyc => hc.1 hyc.symm
      exact List.mem_append.mpr (.inr (List.mem_cons_of_mem _ hm))
    refine ⟨?_, ?_, ih h3 (List.nodup_cons.mpr ⟨hy, hn⟩) hc.2⟩
    · rw [hnext, if_neg hap, h1]
    · rw [hprev, if_neg hyn, h2]

/-- The move of a node to the front. -/
theorem Linked.toFront (hl : L.Linked h (l ++ b :: r)) :
    ((L.unlink b).pushFront h b).Linked h (b :: (l ++ r)) := by
  have hnodup := hl.nodup
  obtain ⟨hh, hn⟩ := List.nodup_cons.mp hnodup
  have hperm : List.Perm (l ++ b :: r) (b :: (l ++ r)) := List.perm_middle
  have hn' := hperm.nodup_iff.mp hn
  rw [hperm.mem_iff, List.mem_cons, not_or] at hh
  have hunlinked : (L.unlink b).Linked h (l ++ r) :=
    ⟨hl.seg.unlink hnodup (List.nodup_cons.mp hnodup).1,
      List.nodup_cons.mpr ⟨hh.2, (List.nodup_cons.mp hn').2⟩⟩
  refine hunlinked.pushFront ?_
  rw [List.mem_cons, not_or]
  exact ⟨fun e => hh.1 e.symm, (List.nodup_cons.mp hn').1⟩

end Links

end Lib
