import Mathlib.Data.List.Basic
import Mathlib.Data.List.Nodup
import Mathlib.Logic.Function.Basic

/-!
# Singly linked circular lists

Nodes with a `next` pointer that is never null. `Leads next a l b` says that the pointers lead from
`a` through the nodes `l` to `b`, and `Circuit next l` that they lead once around the nodes `l`. A
circuit can be read from any of its nodes on (`Circuit.start`); a node is linked in or out by a
store into the node before it.
-/

namespace Lib

open Function

variable {α : Type*} {next next' : α → α} {a b c x y : α} {l r : List α}

/-- From `a` through `l` to `b`. -/
def Leads (next : α → α) : α → List α → α → Prop
  | a, [], b => next a = b
  | a, x :: l, b => next a = x ∧ Leads next x l b

theorem path_append : Leads next a (l ++ x :: r) b ↔ Leads next a l x ∧ Leads next x r b := by
  induction l generalizing a with
  | nil => simp [Leads]
  | cons y l ih => simp [Leads, ih, and_assoc]

/-- A path depends on the pointers of its nodes alone; its first node may be replaced by one with
the same pointer. -/
theorem Leads.congr (h : Leads next a l b) (ha : next' c = next a) (hl : ∀ x ∈ l, next' x = next x) :
    Leads next' c l b := by
  induction l generalizing a c with
  | nil => exact ha.trans h
  | cons x l ih =>
    exact ⟨ha.trans h.1, ih h.2 (hl x (by simp)) fun y hy => hl y (by simp [hy])⟩

/-- Once around the nodes `l`. -/
def Circuit (next : α → α) : List α → Prop
  | [] => False
  | a :: l => Leads next a l a

theorem Circuit.congr (h : Circuit next l) (hn : ∀ x ∈ l, next' x = next x) : Circuit next' l := by
  cases l with
  | nil => exact h
  | cons a l => exact Leads.congr h (hn a (by simp)) fun x hx => hn x (by simp [hx])

/-- A circuit has no distinguished first node. -/
theorem Circuit.rotate (h : Circuit next (l ++ r)) : Circuit next (r ++ l) := by
  cases l with
  | nil => simpa using h
  | cons a l =>
    cases r with
    | nil => simpa using h
    | cons x r => exact path_append.mpr (path_append.mp h).symm

/-- A circuit read from the node `x` on. -/
theorem Circuit.start (h : Circuit next l) (hx : x ∈ l) : ∃ r, Leads next x r x ∧ (x :: r).Perm l := by
  obtain ⟨u, v, rfl⟩ := List.append_of_mem hx
  have hperm : ((x :: v) ++ u).Perm (u ++ x :: v) := List.perm_append_comm
  exact ⟨v ++ u, h.rotate, hperm⟩

/-- Where the pointer of a node leads: to the node after it, or from the last to the first. -/
theorem Circuit.next_cases (h : Circuit next (a :: l)) (hx : x ∈ a :: l) :
    (∃ u y v, a :: l = u ++ x :: y :: v ∧ next x = y) ∨
      ∃ u, a :: l = u ++ [x] ∧ next x = a := by
  obtain ⟨u, v, huv⟩ := List.append_of_mem hx
  have hring := h
  rw [huv] at hring
  have hpath : Leads next x (v ++ u) x := hring.rotate
  cases v with
  | cons y v => exact .inl ⟨u, y, v, huv, hpath.1⟩
  | nil =>
    refine .inr ⟨u, huv, ?_⟩
    cases u with
    | nil =>
      obtain ⟨rfl, rfl⟩ := List.cons.inj huv
      exact hpath
    | cons z u =>
      obtain ⟨rfl, -⟩ := List.cons.inj huv
      exact hpath.1

theorem Circuit.next_mem (h : Circuit next l) (hx : x ∈ l) : next x ∈ l := by
  obtain ⟨r, hpath, hperm⟩ := h.start hx
  refine hperm.mem_iff.mp ?_
  cases r with
  | nil => simp [show next x = x from hpath]
  | cons y r => simp [hpath.1]

theorem Circuit.next_mid (h : Circuit next (l ++ x :: y :: r)) : next x = y := by
  have hpath : Leads next x (y :: r ++ l) x := h.rotate
  exact hpath.1

variable [DecidableEq α]

/-- A store of a new node into the node before its place, when it points to the node after. -/
theorem Circuit.link (h : Circuit next (l ++ x :: r)) (hd : (l ++ x :: r).Nodup) (hc : c ∉ l ++ x :: r)
    (hn : next c = next x) : Circuit (update next x c) (l ++ x :: c :: r) := by
  have hpath : Leads next x (r ++ l) x := h.rotate
  have hx : x ∉ r ++ l := by
    have := (List.perm_append_comm).nodup_iff.mp hd
    exact (List.nodup_cons.mp this).1
  have hne : c ≠ x := fun e => hc (by simp [e])
  refine Circuit.rotate (l := x :: c :: r) ⟨by simp, hpath.congr ?_ fun y hy => ?_⟩
  · rw [update_of_ne hne, hn]
  · exact update_of_ne (fun e : y = x => hx (e ▸ hy)) _ _

/-- A store of the node after the next one takes the next one out. -/
theorem Circuit.unlink (h : Circuit next (l ++ x :: y :: r)) (hd : (l ++ x :: y :: r).Nodup) :
    Circuit (update next x (next y)) (l ++ x :: r) := by
  have hpath : Leads next x (y :: r ++ l) x := h.rotate
  have hx : x ∉ y :: r ++ l := by
    have := (List.perm_append_comm).nodup_iff.mp hd
    exact (List.nodup_cons.mp this).1
  refine Circuit.rotate (l := x :: r) (hpath.2.congr (by simp) fun z hz => ?_)
  exact update_of_ne (fun e : z = x => hx (List.mem_cons_of_mem _ (e ▸ hz))) _ _

end Lib
