import Mathlib.Logic.Basic

/-!
# Programs that are interrupted between operations

A thread asks for one operation after the other and goes on with the answer; in between, others may
run. What an operation does to what the thread owns is given by a precondition and a postcondition
over ghost states `G`, and `Thread.wp` follows a thread through all answers: it meets the
precondition of every operation that it asks for, and ends as `Q` says.
-/

namespace Lib

/-- Programs over the operations `F`, where `F β` are those that answer with a `β`. -/
inductive Thread (F : Type → Type 1) (α : Type) : Type 1
  | ret (a : α)
  | ask {β : Type} (o : F β) (k : β → Thread F α)

namespace Thread

variable {F : Type → Type 1} {α β G : Type}

protected def bind : Thread F α → (α → Thread F β) → Thread F β
  | .ret a, f => f a
  | .ask o k, f => .ask o fun b => (k b).bind f

instance : Monad (Thread F) where
  pure := .ret
  bind := Thread.bind

theorem bind_bind {γ : Type} (x : Thread F α) (f : α → Thread F β) (h : β → Thread F γ) :
    (x >>= f) >>= h = x >>= fun a => f a >>= h := by
  induction x with
  | ret a => rfl
  | ask o k ih => exact congrArg (Thread.ask o) (funext ih)

def op (o : F α) : Thread F α := .ask o .ret

/-- The program alone: each operation runs in the monad `M`. -/
def alone {M : Type → Type} [Monad M] (h : ∀ {β : Type}, F β → M β) : Thread F α → M α
  | .ret a => pure a
  | .ask o k => h o >>= fun b => (k b).alone h

/-- What an operation asks of what the thread owns, and what it makes of it. -/
structure Spec (F : Type → Type 1) (G : Type) where
  pre : ∀ {β : Type}, F β → G → Prop
  post : ∀ {β : Type}, F β → G → β → G → Prop

/-- The thread meets the precondition of every operation and ends as `Q` says. -/
def wp (S : Spec F G) : Thread F α → (α → G → Prop) → G → Prop
  | .ret a, Q, g => Q a g
  | .ask o k, Q, g => S.pre o g ∧ ∀ b g', S.post o g b g' → (k b).wp S Q g'

variable {S : Spec F G} {Q Q' : α → G → Prop} {g : G}

@[simp] theorem wp_pure {a : α} : wp S (pure a : Thread F α) Q g ↔ Q a g := Iff.rfl

@[simp] theorem wp_bind {x : Thread F α} {f : α → Thread F β} {R : β → G → Prop} :
    wp S (x >>= f) R g ↔ wp S x (fun a g' => wp S (f a) R g') g := by
  induction x generalizing g with
  | ret a => exact Iff.rfl
  | ask o k ih => exact and_congr_right fun _ => forall_congr' fun b => forall_congr' fun g' =>
      imp_congr_right fun _ => ih b

theorem wp_mono {x : Thread F α} (h : wp S x Q g) (hQ : ∀ a g', Q a g' → Q' a g') :
    wp S x Q' g := by
  induction x generalizing g with
  | ret a => exact hQ a g h
  | ask o k ih => exact ⟨h.1, fun b g' hb => ih b (h.2 b g' hb)⟩

section Alone

variable {M : Type → Type} [Monad M] (h : ∀ {β : Type}, F β → M β)

@[simp] theorem alone_pure (a : α) : (pure a : Thread F α).alone h = pure a := rfl

variable [LawfulMonad M]

@[simp] theorem alone_op (o : F α) : (op o).alone h = h o := bind_pure (h o)

@[simp] theorem alone_bind (x : Thread F α) (f : α → Thread F β) :
    (x >>= f).alone h = x.alone h >>= fun a => (f a).alone h := by
  induction x with
  | ret a =>
    show (f a).alone h = (pure a : M α) >>= fun a => (f a).alone h
    rw [pure_bind]
  | ask o k ih =>
    show (h o >>= fun b => ((k b) >>= f).alone h) = (h o >>= fun b => (k b).alone h) >>= _
    rw [bind_assoc]
    exact congrArg _ (funext ih)

end Alone

end Thread

end Lib
