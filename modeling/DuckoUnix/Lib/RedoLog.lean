import Mathlib.Data.List.Basic
import Mathlib.Data.List.Nodup
import Mathlib.Logic.Function.Basic

/-!
# Redo logging

A store keeps its values at home addresses and has a log beside them: a header, which lists
addresses, and one slot for each of them. `replay` is what the home addresses hold once every slot
the header lists has been copied to its address. A recovery computes it, so it is what the store
is worth at each moment; the lemmas say which writes leave it as it is.

The second part says what the store is for. Its history is a list of updates, of commits and of
crashes; `transactions` are the updates between commits, without those that a crash cut off, and
`contents` is what they leave.
-/

namespace Lib

variable {α β : Type*} [DecidableEq α]

/-! ## Replaying the log -/

/-- What address `a` holds when the slots listed in the header have been copied home. -/
def replay (header : List α) (slot : ℕ → β) (home : α → β) (a : α) : β :=
  if a ∈ header then slot (header.idxOf a) else home a

@[simp] theorem replay_nil (slot : ℕ → β) (home : α → β) : replay [] slot home = home := rfl

/-- Slots the header does not list and home addresses it lists do not count. -/
theorem replay_congr {header : List α} {slot slot' : ℕ → β} {home home' : α → β} {a : α}
    (hslot : ∀ k < header.length, slot k = slot' k) (hhome : a ∉ header → home a = home' a) :
    replay header slot home a = replay header slot' home' a := by
  unfold replay
  split_ifs with h
  · exact hslot _ (List.idxOf_lt_length_of_mem h)
  · exact hhome h

theorem replay_eq_of_agree {header : List α} {slot : ℕ → β} {home spec : α → β} {a : α}
    (hslot : ∀ k (hk : k < header.length), slot k = spec header[k])
    (hhome : a ∉ header → home a = spec a) : replay header slot home a = spec a := by
  unfold replay
  split_ifs with h
  · rw [hslot _ (List.idxOf_lt_length_of_mem h), List.getElem_idxOf]
  · exact hhome h

/-! ## Transactions -/

/-- What happens to the store. -/
inductive Event (α β : Type*)
  | update (a : α) (x : β)
  | commit
  | crash

/-- The committed transactions and the updates after them. -/
structure Journal (α β : Type*) where
  transactions : List (List (α × β))
  tail : List (α × β)

/-- A commit closes the open transaction, a crash drops it. -/
def Journal.add (j : Journal α β) : Event α β → Journal α β
  | .update a x => { j with tail := j.tail ++ [(a, x)] }
  | .commit => ⟨j.transactions ++ [j.tail], []⟩
  | .crash => { j with tail := [] }

def journal (history : List (Event α β)) : Journal α β := history.foldl Journal.add ⟨[], []⟩

def applyUpdates (home : α → β) (us : List (α × β)) : α → β :=
  us.foldl (fun h u => Function.update h u.1 u.2) home

/-- What the committed transactions leave. -/
def contents (home : α → β) (history : List (Event α β)) : α → β :=
  applyUpdates home (journal history).transactions.flatten

/-- The same with the updates no commit has closed yet. -/
def latest (home : α → β) (history : List (Event α β)) : α → β :=
  applyUpdates (contents home history) (journal history).tail

section History

variable (home : α → β) (history : List (Event α β))

@[simp] theorem contents_update (a : α) (x : β) :
    contents home (history ++ [.update a x]) = contents home history := by
  simp [contents, journal, Journal.add]

@[simp] theorem latest_update (a : α) (x : β) :
    latest home (history ++ [.update a x]) = Function.update (latest home history) a x := by
  unfold latest
  rw [contents_update]
  simp [journal, Journal.add, applyUpdates]

@[simp] theorem contents_commit :
    contents home (history ++ [.commit]) = latest home history := by
  simp [latest, contents, journal, Journal.add, applyUpdates]

@[simp] theorem latest_commit :
    latest home (history ++ [.commit]) = latest home history := by
  have h : (journal (history ++ [(Event.commit : Event α β)])).tail = [] := by
    simp [journal, Journal.add]
  rw [latest, h, contents_commit]
  rfl

@[simp] theorem contents_crash :
    contents home (history ++ [.crash]) = contents home history := by
  simp [contents, journal, Journal.add]

@[simp] theorem latest_crash :
    latest home (history ++ [.crash]) = contents home history := by
  have h : (journal (history ++ [(Event.crash : Event α β)])).tail = [] := by
    simp [journal, Journal.add]
  rw [latest, h, contents_crash]
  rfl

end History

end Lib
