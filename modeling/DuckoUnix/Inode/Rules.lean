import DuckoUnix.Inode.View

/-!
# Rules for the code on inodes

Weakest preconditions of the operations on what is seen, and of the functions that lock, unlock and
drop inodes.
-/

namespace DuckoUnix.Inode

open Lib Fs Function

variable {v v' : View} {ip jp : Ip} {E : Fault → Prop} {α β : Type}

/-! ## Code without interruption -/

@[simp] theorem abs_pure (a : α) : T.abs (pure a) = pure a := rfl

@[simp] theorem abs_bind (t : T α) (f : α → T β) :
    T.abs (t >>= f) = T.abs t >>= fun a => T.abs (f a) := Thread.alone_bind _ t f

@[simp] theorem abs_op (o : Op α) : T.abs (Thread.op o) = o.abs := Thread.alone_op _ o

theorem wp_of_ok {x : V α} {Q : α → View → Prop} {a : α} (hx : x v = .ok (a, v')) (hQ : Q a v') :
    wp E x Q v := by
  unfold wp
  rw [hx]
  exact hQ

theorem wp_of_error {x : V α} {Q : α → View → Prop} {e : Fault} (hx : x v = .error e) (hE : E e) :
    wp E x Q v := by
  unfold wp
  rw [hx]
  exact hE

/-! ## Views -/

@[simp] theorem View.put_ent_self {e : Entry} : (v.put ip e).ent ip = e := update_self _ _ _

/-- The view with the inode locked, which has been read from the disk then. -/
def View.lock (v : View) (ip : Ip) : View :=
  v.put ip { v.ent ip with
    locked := true
    valid := true
    attr := if (v.ent ip).valid = true then (v.ent ip).attr else (v.nodeOf ip).attr }

def View.unlock (v : View) (ip : Ip) : View :=
  { v.put ip { v.ent ip with locked := false } with
    stale := v.stale || ((v.ent ip).valid && decide ((v.ent ip).attr ≠ (v.nodeOf ip).attr)) }

section Fields

variable (v : View) (ip : Ip)

@[simp] theorem View.lock_ent_self : (v.lock ip).ent ip = { v.ent ip with
    locked := true
    valid := true
    attr := if (v.ent ip).valid = true then (v.ent ip).attr else (v.nodeOf ip).attr } :=
  View.put_ent_self

@[simp] theorem View.lock_node : (v.lock ip).node = v.node := rfl

@[simp] theorem View.lock_outstanding : (v.lock ip).outstanding = v.outstanding := rfl

@[simp] theorem View.lock_spent : (v.lock ip).spent = v.spent := rfl

@[simp] theorem View.unlock_ent_self : (v.unlock ip).ent ip = { v.ent ip with locked := false } :=
  View.put_ent_self

end Fields

/-! ## Functions -/

theorem wp_look {Q : Fields → View → Prop} : wp E (T.abs (look ip)) Q v ↔
    Q ⟨(v.ent ip).inum, (v.ent ip).ref, (v.ent ip).valid, (v.ent ip).attr⟩ v := by
  unfold look
  rw [abs_op]
  exact Iff.rfl

theorem wp_ilock {Q : Unit → View → Prop} (hr : 0 < (v.ent ip).ref) (hl : (v.ent ip).locked = false)
    (ht : (v.ent ip).valid = true ∨ (v.nodeOf ip).attr.type ≠ T_FREE) (hQ : Q () (v.lock ip)) :
    wp E (T.abs (ilock ip)) Q v := by
  unfold ilock
  rw [abs_bind, wp_bind, wp_look]
  dsimp only
  rw [if_neg (Nat.not_lt.mpr hr), abs_bind, wp_bind, abs_op]
  refine wp_of_ok (if_neg (by rw [hl]; exact Bool.false_ne_true)) ?_
  rw [abs_op]
  generalize hv₁ : v.put ip { v.ent ip with locked := true } = v₁
  have hent : v₁.ent ip = { v.ent ip with locked := true } := by rw [← hv₁, View.put_ent_self]
  have hnode : v₁.nodeOf ip = v.nodeOf ip := by
    unfold View.nodeOf
    rw [hent, ← hv₁]
    rfl
  have hput : ∀ e, v₁.put ip e = v.put ip e := by
    intro e
    rw [← hv₁]
    unfold View.put
    rw [update_idem]
  have hr₁ : 0 < (v₁.ent ip).ref := by rw [hent]; exact hr
  unfold View.lock at hQ
  by_cases hv : (v.ent ip).valid = true
  · rw [if_pos hv] at hQ
    have hx : Op.abs (.load ip) v₁ = .ok ((), v₁) := by
      show (if _ then _ else _) = _
      rw [if_pos hr₁, if_neg]
      rw [hent]
      show ¬ (v.ent ip).valid = false
      rw [hv]
      exact fun h => nomatch h
    refine wp_of_ok hx ?_
    have hlock : v.put ip { v.ent ip with locked := true, valid := true } = v₁ := by
      rw [← hv₁, ← hv]
    rwa [← hlock]
  · rw [if_neg hv] at hQ
    have hv' : (v₁.ent ip).valid = false := by
      rw [hent]
      exact Bool.eq_false_iff.mpr hv
    have hx : Op.abs (.load ip) v₁ =
        .ok ((), v₁.put ip { v₁.ent ip with attr := (v₁.nodeOf ip).attr, valid := true }) := by
      show (if _ then _ else _) = _
      rw [if_pos hr₁, if_pos hv', if_neg]
      rw [hnode]
      exact ht.resolve_left hv
    refine wp_of_ok hx ?_
    rwa [hput, hent, hnode]

theorem wp_iunlock {Q : Unit → View → Prop} (hr : 0 < (v.ent ip).ref)
    (hl : (v.ent ip).locked = true) (hQ : Q () (v.unlock ip)) :
    wp E (T.abs (iunlock ip)) Q v := by
  unfold iunlock
  rw [abs_bind, wp_bind, abs_op]
  refine wp_of_ok rfl ?_
  rw [abs_bind, wp_bind, wp_look]
  dsimp only
  rw [if_neg, abs_op]
  · exact wp_of_ok (if_pos hr) hQ
  · rw [hl]
    rintro (h | h)
    · cases h
    · exact absurd hr (Nat.not_lt.mpr (Nat.lt_one_iff.mp h).le)

theorem wp_writei {Q : Option ℕ → View → Prop} {src : List (BitVec 8)} {off : ℕ}
    (ht : (v.ent ip).attr.type ≠ T_DEV) (hQ : wp E (vwrite ip src off) Q v) :
    wp E (T.abs (writei ip src off)) Q v := by
  unfold writei
  rw [abs_bind, wp_bind, wp_look]
  dsimp only
  rw [if_neg ht, abs_op]
  exact hQ

end DuckoUnix.Inode
