import DuckoUnix.Fs.Files
import DuckoUnix.Inode.Code

/-!
# What the code on inodes sees

A file system as the code above `readi` and `writei` sees it: inodes with attributes and contents, and
the inode cache. `Op.abs` is what the operations do to it. An operation that is called when it must
not be, such as reading an inode that has not been locked, is a `misuse`; the code does not promise
anything then. `spent` counts the blocks that writing may have taken.

`Refine` shows that the blocks on the disk behave like this.
-/

namespace DuckoUnix.Inode

open Lib Fs

structure Node where
  attr : Attr
  data : List (BitVec 8)
  deriving DecidableEq

/-- An inode in memory; it has the contents of the inode on the disk. -/
structure Entry where
  inum : ℕ
  ref : ℕ
  locked : Bool
  valid : Bool
  attr : Attr
  deriving DecidableEq

structure View where
  sb : Superblock
  node : ℕ → Node
  ent : Ip → Entry
  outstanding : ℕ
  /-- an inode was unlocked whose copy was not the one on the disk -/
  stale : Bool
  spent : ℕ

/-- How code on inodes stops. -/
inductive Fault
  | misuse
  | panic (e : Panic)
  deriving DecidableEq

/-- Code on what is seen. -/
abbrev V := Prog View Fault

namespace View

variable (v : View)

def put (ip : Ip) (e : Entry) : View := { v with ent := Function.update v.ent ip e }

def store (i : ℕ) (x : Node) : View := { v with node := Function.update v.node i x }

def nodeOf (ip : Ip) : Node := v.node (v.ent ip).inum

/-- The inode in place `ip` is in use and has been read from the disk. -/
def Live (ip : Ip) : Prop := 0 < (v.ent ip).ref ∧ (v.ent ip).valid = true

instance (ip : Ip) : Decidable (v.Live ip) := inferInstanceAs (Decidable (_ ∧ _))

def cached (inum : ℕ) : Option Ip :=
  (List.finRange NINODE).find? fun ip => 0 < (v.ent ip).ref ∧ (v.ent ip).inum = inum

def empty : Option Ip := (List.finRange NINODE).find? fun ip => (v.ent ip).ref = 0

/-- The first free inode of `n`, from `inum` on. -/
def free : ℕ → ℕ → Option ℕ
  | 0, _ => none
  | n + 1, inum => if (v.node inum).attr.type = T_FREE then some inum else free n (inum + 1)

variable {v : View} {n i inum : ℕ}

theorem free_some (h : v.free n inum = some i) : inum ≤ i ∧ i < inum + n ∧
    (v.node i).attr.type = T_FREE ∧ ∀ j, inum ≤ j → j < i → (v.node j).attr.type ≠ T_FREE := by
  induction n generalizing inum with
  | zero => cases h
  | succ n ih =>
    unfold free at h
    split_ifs at h with ht
    · cases h
      exact ⟨Nat.le_refl _, by omega, ht, fun j h₁ h₂ => by omega⟩
    · obtain ⟨h₁, h₂, hfree, hused⟩ := ih h
      refine ⟨by omega, by omega, hfree, fun j h₃ h₄ => ?_⟩
      by_cases e : j = inum
      · rw [e]
        exact ht
      · exact hused j (by omega) h₄

theorem free_none (h : v.free n inum = none) :
    ∀ j, inum ≤ j → j < inum + n → (v.node j).attr.type ≠ T_FREE := by
  induction n generalizing inum with
  | zero => exact fun j h₁ h₂ => by omega
  | succ n ih =>
    unfold free at h
    split_ifs at h with ht
    intro j h₁ h₂
    by_cases e : j = inum
    · rw [e]
      exact ht
    · exact ih h j (by omega) (by omega)

end View

/-! ## Operations -/

/-- A range that `writei` refuses. -/
def TooFar (c : List (BitVec 8)) (off n : ℕ) : Prop :=
  c.length < off ∨ (off + n) % UINT < off ∨ MAXFILE * BSIZE < off + n

instance (c : List (BitVec 8)) (off n : ℕ) : Decidable (TooFar c off n) :=
  inferInstanceAs (Decidable (_ ∨ _))

def viget (inum : ℕ) : V Ip := fun v =>
  if inum < v.sb.nino then
    match v.cached inum with
    | some ip => .ok (ip, v.put ip { v.ent ip with ref := (v.ent ip).ref + 1 })
    | none =>
      match v.empty with
      | none => .error (.panic .igetNoInodes)
      | some ip => .ok (ip, v.put ip { v.ent ip with inum := inum, ref := 1, valid := false })
  else .error .misuse

/-- The part of `ilock` that reads the inode from disk. -/
def vload (ip : Ip) : V Unit := fun v =>
  if 0 < (v.ent ip).ref then
    if (v.ent ip).valid = false then
      if (v.nodeOf ip).attr.type = T_FREE then .error (.panic .noType)
      else .ok ((), v.put ip { v.ent ip with attr := (v.nodeOf ip).attr, valid := true })
    else .ok ((), v)
  else .error .misuse

def vread (ip : Ip) (off n : ℕ) : V (Option (List (BitVec 8))) := fun v =>
  if v.Live ip then
    if (v.nodeOf ip).data.length < off ∨ (off + n) % UINT < off then .ok (none, v)
    else .ok (some (((v.nodeOf ip).data.drop off).take n), v)
  else .error .misuse

/-- What `writei` makes of an inode; the attributes are copied to the disk if it grows. -/
def View.written (v : View) (ip : Ip) (src : List (BitVec 8)) (off : ℕ) : Node where
  attr :=
    if (v.nodeOf ip).data.length < off + src.length ∧ src ≠ [] then (v.ent ip).attr
    else (v.nodeOf ip).attr
  data := patch (v.nodeOf ip).data off src

def vwrite (ip : Ip) (src : List (BitVec 8)) (off : ℕ) : V (Option ℕ) := fun v =>
  if v.Live ip ∧ 0 < v.outstanding then
    if TooFar (v.nodeOf ip).data off src.length then .ok (none, v)
    else .ok (some src.length, { v.store (v.ent ip).inum (v.written ip src off) with
      spent := v.spent + chunks off src.length + 1 })
  else .error .misuse

/-- What an operation does to what is seen. -/
def Op.abs {α : Type} : Op α → V α
  | .begin_op => fun v => .ok ((), { v with outstanding := v.outstanding + 1 })
  | .end_op => fun v => .ok ((), { v with outstanding := v.outstanding - 1 })
  | .iget inum => viget inum
  | .idup ip => fun v =>
    if 0 < (v.ent ip).ref then .ok ((), v.put ip { v.ent ip with ref := (v.ent ip).ref + 1 })
    else .error .misuse
  | .acquiresleep ip => fun v =>
    if (v.ent ip).locked = true then .error (.panic .deadlock)
    else .ok ((), v.put ip { v.ent ip with locked := true })
  | .holdingsleep ip => fun v => .ok ((v.ent ip).locked, v)
  | .releasesleep ip => fun v =>
    if 0 < (v.ent ip).ref then .ok ((), { v.put ip { v.ent ip with locked := false } with
      stale := v.stale || ((v.ent ip).valid && decide ((v.ent ip).attr ≠ (v.nodeOf ip).attr)) })
    else .error .misuse
  | .unref ip => fun v =>
    if 0 < (v.ent ip).ref then .ok ((), v.put ip { v.ent ip with ref := (v.ent ip).ref - 1 })
    else .error .misuse
  | .look ip => fun v =>
    .ok (⟨(v.ent ip).inum, (v.ent ip).ref, (v.ent ip).valid, (v.ent ip).attr⟩, v)
  | .size ip => fun v =>
    if v.Live ip then .ok ((v.nodeOf ip).data.length, v) else .error .misuse
  | .setAttr ip f => fun v =>
    if v.Live ip ∧ (f (v.ent ip).attr).type = (v.ent ip).attr.type then
      .ok ((), v.put ip { v.ent ip with attr := f (v.ent ip).attr })
    else .error .misuse
  | .iupdate ip => fun v =>
    if v.Live ip ∧ 0 < v.outstanding then
      .ok ((), v.store (v.ent ip).inum { v.nodeOf ip with attr := (v.ent ip).attr })
    else .error .misuse
  | .load ip => vload ip
  | .ifree ip => fun v =>
    if v.Live ip ∧ 0 < v.outstanding then
      let attr := { (v.ent ip).attr with type := T_FREE }
      .ok ((), (v.store (v.ent ip).inum ⟨attr, []⟩).put ip
        { v.ent ip with attr := attr, valid := false })
    else .error .misuse
  | .claim type => fun v =>
    if 0 < v.outstanding ∧ type ≠ T_FREE then
      match v.free (v.sb.ninodes - 1) 1 with
      | none => .error (.panic .iallocNoInodes)
      | some inum => .ok (inum, v.store inum ⟨⟨type, 0, 0, 0⟩, []⟩)
    else .error .misuse
  | .readFile ip off n => vread ip off n
  | .writeFile ip src off => vwrite ip src off
  | .panic e => fun _ => .error (.panic e)

/-- What code without interruption does to what is seen. -/
def T.abs {α : Type} (t : T α) : V α := t.alone Op.abs

end DuckoUnix.Inode
