import Mathlib.Data.Multiset.Count
import DuckoUnix.Inode.View

/-!
# What a process owns

While a process is in a system call it owns a transaction, references to inodes and locks of inodes.
What it knows of an inode that it has locked stays true whatever other processes do, so the code can be
looked at one process at a time: `spec` says what each operation needs of what the process owns, and
what it makes of it. The rules below follow the code of a process through its operations with
`Thread.wp`. `Own` shows that the operations behave like this.

If no other process runs, a process knows more: all inodes on the disk, and how many references there
are besides its own. The same rules are used then; `alone` holds what is known.
-/

namespace DuckoUnix.Inode

open Lib Fs Function

/-- What is known of an inode that is locked. -/
inductive Held
  | unknown
  /-- the copy in memory and the inode on the disk -/
  | known (attr : Attr) (node : Node)

/-- What is known if no other process runs. -/
structure Alone where
  node : ℕ → Node
  /-- the number of references that others have -/
  others : ℕ → ℕ
  /-- the blocks that writing may have taken -/
  spent : ℕ
  /-- inodes without links that nobody needs to have read, such as one that was just allocated -/
  young : ℕ → Prop

/-- Nobody has to free the inode when the last reference is dropped. -/
def Alone.Done (A : Alone) (i : ℕ) : Prop :=
  A.young i ∨ (A.node i).attr.type = T_FREE ∨ (A.node i).attr.nlink ≠ 0

/-- What a process owns. -/
structure Ghost where
  /-- it is in a transaction -/
  tx : Bool
  /-- its references, each with the place in the cache and the number of the inode -/
  refs : Multiset (Ip × ℕ)
  /-- the inodes that it has locked -/
  held : Ip → Option Held
  alone : Option Alone

namespace Ghost

variable (g : Ghost) (ip jp : Ip) (i j : ℕ)

def take : Ghost := { g with refs := (ip, i) ::ₘ g.refs }

def drop : Ghost := { g with refs := g.refs.erase (ip, i) }

/-- An inode is locked, with what is known of it. -/
def hold (h : Held) : Ghost := { g with held := update g.held ip (some h) }

def unlock : Ghost := { g with held := update g.held ip none }

/-- The inode on the disk has changed. -/
def store (x : Node) : Ghost :=
  { g with alone := g.alone.map fun A => { A with node := update A.node i x } }

def spend (k : ℕ) : Ghost :=
  { g with alone := g.alone.map fun A => { A with spent := A.spent + k } }

/-- The inode was just allocated. -/
def bear : Ghost :=
  { g with alone := g.alone.map fun A => { A with young := fun j => j = i ∨ A.young j } }

def count : ℕ := g.refs.countP fun x => x.1 = ip

variable {g ip jp i j} {h h' : Held} {x : Node}

@[simp] theorem take_drop : (g.take ip i).drop ip i = g := by
  unfold take drop
  rw [Multiset.erase_cons_head]

theorem take_comm : (g.take ip i).take jp j = (g.take jp j).take ip i := by
  unfold take
  rw [Multiset.cons_swap]

@[simp] theorem take_store_drop : ((g.take ip i).store j x).drop ip i = g.store j x := by
  unfold take store drop
  rw [Multiset.erase_cons_head]

@[simp] theorem hold_held_self : (g.hold ip h).held ip = some h := update_self _ _ _

@[simp] theorem hold_hold : (g.hold ip h).hold ip h' = g.hold ip h' := by
  unfold hold
  rw [update_idem]

theorem hold_unlock (hh : g.held ip = none) : (g.hold ip h).unlock ip = g := by
  unfold hold unlock
  rw [update_idem, ← hh, update_eq_self]

theorem store_self (hx : ∀ A, g.alone = some A → A.node i = x) : g.store i x = g := by
  obtain ⟨tx, refs, held, alone⟩ := g
  cases alone with
  | none => rfl
  | some A =>
    unfold store
    rw [← hx A rfl, Option.map_some, update_eq_self]

theorem mem_take : (ip, i) ∈ (g.take ip i).refs := Multiset.mem_cons_self _ _

theorem mem_take_of_mem (hm : (jp, j) ∈ g.refs) : (jp, j) ∈ (g.take ip i).refs :=
  Multiset.mem_cons_of_mem hm

theorem count_take : (g.take ip i).count jp = g.count jp + if jp = ip then 1 else 0 := by
  unfold count take
  rw [Multiset.countP_cons]
  simp only [eq_comm]

theorem count_pos (hm : (ip, i) ∈ g.refs) : 0 < g.count ip :=
  Multiset.countP_pos_of_mem hm rfl

theorem count_drop (hm : (ip, i) ∈ g.refs) (jp : Ip) :
    (g.drop ip i).count jp + (if jp = ip then 1 else 0) = g.count jp := by
  have hg : (g.drop ip i).take ip i = g := by
    unfold take drop
    rw [Multiset.cons_erase hm]
  rw [← count_take, hg]

end Ghost

/-! ## Operations -/

/-- What the processes agree on: the layout, what holds of every inode that is not locked, and the
panics that are allowed. -/
structure Rules where
  sb : Superblock
  Good : ℕ → Node → Prop
  Panics : Panic → Prop

def Node.fresh (type : BitVec 16) : Node := ⟨⟨type, 0, 0, 0⟩, []⟩

/-- What is known of an inode as soon as it is locked. -/
structure Rules.Seen (R : Rules) (g : Ghost) (i : ℕ) (n : Node) : Prop where
  alloc : n.attr.type ≠ T_FREE
  good : R.Good i n
  alone : ∀ A, g.alone = some A → A.node i = n

/-- What `writei` of `src` at `off` makes of an inode. -/
def Node.write (n : Node) (a : Attr) (src : List (BitVec 8)) (off : ℕ) : Node where
  attr := if n.data.length < off + src.length ∧ src ≠ [] then a else n.attr
  data := patch n.data off src

/-- The process writes to an inode that it has locked. -/
def Ghost.write (g : Ghost) (ip : Ip) (i : ℕ) (a : Attr) (n : Node) (src : List (BitVec 8)) (off : ℕ) :
    Ghost :=
  ((g.hold ip (.known a (n.write a src off))).store i (n.write a src off)).spend
    (chunks off src.length + 1)

/-- The inodes that somebody refers to. -/
def Rules.inUse (R : Rules) (g : Ghost) (A : Alone) : Finset ℕ :=
  (Finset.range R.sb.nino).filter fun i => 0 < A.others i ∨ i ∈ g.refs.map Prod.snd

/-- There is room in the inode cache for one more, or else the code may panic. -/
def Rules.Room (R : Rules) (g : Ghost) : Prop :=
  R.Panics .igetNoInodes ∨ ∃ A, g.alone = some A ∧ (R.inUse g A).card < NINODE

theorem inUse_take_le (R : Rules) (g : Ghost) (A : Alone) (ip : Ip) (i : ℕ) :
    (R.inUse (g.take ip i) A).card ≤ (R.inUse g A).card + 1 := by
  have hsub : R.inUse (g.take ip i) A ⊆ insert i (R.inUse g A) := by
    intro j hj
    obtain ⟨hlt, hj⟩ := Finset.mem_filter.mp hj
    rw [show (g.take ip i).refs = (ip, i) ::ₘ g.refs from rfl, Multiset.map_cons,
      Multiset.mem_cons] at hj
    rw [Finset.mem_insert]
    by_cases e : j = i
    · exact Or.inl e
    · exact Or.inr (Finset.mem_filter.mpr ⟨hlt, hj.imp_right fun h => h.resolve_left e⟩)
  exact (Finset.card_le_card hsub).trans (Finset.card_insert_le _ _)

/-- What an operation needs. -/
def Op.pre {α : Type} (R : Rules) (o : Op α) (g : Ghost) : Prop :=
  match o with
  | .begin_op => g.tx = false
  | .end_op => g.tx = true
  | .iget i => i < R.sb.nino ∧ R.Room g
  | .idup ip => ∃ i, (ip, i) ∈ g.refs
  | .acquiresleep ip => (∃ i, (ip, i) ∈ g.refs) ∧
      (g.alone = none ∨ R.Panics .deadlock ∨ g.held ip = none)
  | .holdingsleep ip => g.held ip ≠ none
  | .releasesleep ip => g.held ip = some .unknown ∨
      ∃ i n, (ip, i) ∈ g.refs ∧ g.held ip = some (.known n.attr n) ∧ R.Good i n
  | .unref ip => (∃ i, (ip, i) ∈ g.refs ∧ ∀ A, g.alone = some A →
      A.others i + g.count ip = 1 → A.Done i) ∧ g.held ip = none
  | .look ip => ∃ i, (ip, i) ∈ g.refs
  | .size ip => ∃ a n, g.held ip = some (.known a n)
  | .setAttr ip f => ∃ a n, g.held ip = some (.known a n) ∧ (f a).type = a.type
  | .iupdate ip => g.tx = true ∧ (∃ i, (ip, i) ∈ g.refs) ∧ ∃ a n, g.held ip = some (.known a n)
  | .load ip => (∃ i, (ip, i) ∈ g.refs) ∧ ∃ h, g.held ip = some h ∧
      (h = .unknown → R.Panics .noType ∨
        ∃ A i, g.alone = some A ∧ (ip, i) ∈ g.refs ∧ (A.node i).attr.type ≠ T_FREE)
  | .ifree ip => g.tx = true ∧ (∃ i, (ip, i) ∈ g.refs) ∧ ∃ a n, g.held ip = some (.known a n)
  | .claim type => g.tx = true ∧ type ≠ T_FREE ∧ (∀ i, R.Good i (Node.fresh type)) ∧
      (R.Panics .iallocNoInodes ∨
        ∃ A i, g.alone = some A ∧ 1 ≤ i ∧ i < R.sb.ninodes ∧ (A.node i).attr.type = T_FREE)
  | .readFile ip _ _ => ∃ a n, g.held ip = some (.known a n)
  | .writeFile ip _ _ => g.tx = true ∧ (∃ i, (ip, i) ∈ g.refs) ∧
      ∃ a n, g.held ip = some (.known a n)
  | .panic e => R.Panics e

/-- What is read of an inode. -/
structure Ghost.Looks (g : Ghost) (ip : Ip) (i : ℕ) (f : Fields) : Prop where
  inum : f.inum = i
  ref : 1 ≤ f.ref
  known : ∀ a n, g.held ip = some (.known a n) → f.valid = true ∧ f.attr = a
  alone : ∀ A, g.alone = some A → f.ref = A.others i + g.count ip
  invalid : ∀ A, g.alone = some A → f.valid = false → A.Done i

/-- What an operation makes of it. -/
def Op.post {α : Type} (R : Rules) (o : Op α) (g : Ghost) (b : α) (g' : Ghost) : Prop :=
  match o, b with
  | .begin_op, _ => g' = { g with tx := true }
  | .end_op, _ => g' = { g with tx := false }
  | .iget i, ip => (∀ jp j, (jp, j) ∈ g.refs → (jp = ip ↔ j = i)) ∧ g' = g.take ip i
  | .idup ip, _ => ∀ i, (ip, i) ∈ g.refs → g' = g.take ip i
  | .acquiresleep ip, _ => g.held ip = none ∧ g' = g.hold ip .unknown
  | .holdingsleep _, b => b = true ∧ g' = g
  | .releasesleep ip, _ => g' = g.unlock ip
  | .unref ip, _ => ∀ i, (ip, i) ∈ g.refs → g' = g.drop ip i
  | .look ip, f => ∀ i, (ip, i) ∈ g.refs → g.Looks ip i f ∧
      ((¬ (g.held ip = some .unknown ∧ f.valid = true) ∧ g' = g) ∨
        ∃ n, g.held ip = some .unknown ∧ f.valid = true ∧ f.attr = n.attr ∧ R.Seen g i n ∧
          g' = g.hold ip (.known n.attr n))
  | .size ip, b => ∀ a n, g.held ip = some (.known a n) → b = n.data.length ∧ g' = g
  | .setAttr ip f, _ => ∀ a n, g.held ip = some (.known a n) → g' = g.hold ip (.known (f a) n)
  | .iupdate ip, _ => ∀ i a n, (ip, i) ∈ g.refs → g.held ip = some (.known a n) →
      g' = (g.hold ip (.known a { n with attr := a })).store i { n with attr := a }
  | .load ip, _ => (∀ a n, g.held ip = some (.known a n) → g' = g) ∧
      (g.held ip = some .unknown → ∀ i, (ip, i) ∈ g.refs →
        ∃ n, R.Seen g i n ∧ g' = g.hold ip (.known n.attr n))
  | .ifree ip, _ => ∀ i a n, (ip, i) ∈ g.refs → g.held ip = some (.known a n) →
      g' = (g.hold ip .unknown).store i ⟨{ a with type := T_FREE }, []⟩
  | .claim type, i => 1 ≤ i ∧ i < R.sb.ninodes ∧
      (∀ A, g.alone = some A → (A.node i).attr.type = T_FREE) ∧
      g' = (g.store i (Node.fresh type)).bear i
  | .readFile ip off n, r => ∀ a x, g.held ip = some (.known a x) →
      r = (if x.data.length < off ∨ (off + n) % UINT < off then none
        else some ((x.data.drop off).take n)) ∧ g' = g
  | .writeFile ip src off, r => ∀ i a n, (ip, i) ∈ g.refs → g.held ip = some (.known a n) →
      if TooFar n.data off src.length then r = none ∧ g' = g
      else r = some src.length ∧ g' = g.write ip i a n src off
  | .panic _, _ => False

/-- What the operations do to what a process owns. -/
def Rules.spec (R : Rules) : Thread.Spec Op Ghost := ⟨Op.pre R, Op.post R⟩

section Ops

variable {R : Rules} {g : Ghost} {ip jp : Ip} {i : ℕ} {a : Attr} {n : Node} {α β : Type}

theorem wp_ite' {c : Prop} [Decidable c] {x y : T α} {Q : α → Ghost → Prop}
    (hc : c → x.wp R.spec Q g) (hn : ¬ c → y.wp R.spec Q g) :
    (if c then x else y).wp R.spec Q g := by
  by_cases h : c
  · rw [if_pos h]
    exact hc h
  · rw [if_neg h]
    exact hn h

theorem op_wp {o : Op α} {Q : α → Ghost → Prop} (hpre : o.pre R g)
    (hQ : ∀ b g', o.post R g b g' → Q b g') : (Thread.op o).wp R.spec Q g :=
  ⟨hpre, hQ⟩

theorem end_op_wp {Q : Unit → Ghost → Prop} (h : g.tx = true) (hQ : Q () { g with tx := false }) :
    end_op.wp R.spec Q g :=
  ⟨h, by rintro _ _ rfl; exact hQ⟩

theorem panic_wp {e : Panic} {Q : α → Ghost → Prop} (h : R.Panics e) :
    (panic e : T α).wp R.spec Q g :=
  ⟨h, fun _ _ h' => h'.elim⟩

theorem iget_wp {Q : Ip → Ghost → Prop} (hi : i < R.sb.nino) (hroom : R.Room g)
    (hQ : ∀ ip, (∀ jp j, (jp, j) ∈ g.refs → (jp = ip ↔ j = i)) → Q ip (g.take ip i)) :
    (iget i).wp R.spec Q g :=
  ⟨⟨hi, hroom⟩, by rintro ip _ ⟨h, rfl⟩; exact hQ ip h⟩

theorem idup_wp {Q : Ip → Ghost → Prop} (hi : (ip, i) ∈ g.refs) (hQ : Q ip (g.take ip i)) :
    (idup ip).wp R.spec Q g :=
  ⟨⟨i, hi⟩, fun _ g' h => by rw [h i hi]; exact hQ⟩

theorem look_wp {Q : Fields → Ghost → Prop} (hi : (ip, i) ∈ g.refs)
    (h : g.held ip = some (.known a n)) (hQ : ∀ f, g.Looks ip i f → f.attr = a → Q f g) :
    (look ip).wp R.spec Q g := by
  refine ⟨⟨i, hi⟩, fun f g' hpost => ?_⟩
  obtain ⟨hf, ⟨-, rfl⟩ | ⟨m, hu, -⟩⟩ := hpost i hi
  · exact hQ f hf (hf.known a n h).2
  · rw [h] at hu
    cases hu

theorem size_wp {Q : ℕ → Ghost → Prop} (h : g.held ip = some (.known a n))
    (hQ : Q n.data.length g) : (size ip).wp R.spec Q g := by
  refine ⟨⟨a, n, h⟩, fun b g' hpost => ?_⟩
  obtain ⟨rfl, rfl⟩ := hpost a n h
  exact hQ

/-! ## Inodes -/

/-- Waiting for the lock of an inode ends, or else the code may wait for ever. -/
def Rules.Free (R : Rules) (g : Ghost) (ip : Ip) : Prop :=
  g.alone = none ∨ R.Panics .deadlock ∨ g.held ip = none

/-- The inode is allocated, or else the code may panic. -/
def Rules.Typed (R : Rules) (g : Ghost) (i : ℕ) : Prop :=
  R.Panics .noType ∨ ∃ A, g.alone = some A ∧ (A.node i).attr.type ≠ T_FREE

theorem ilock_wp {Q : Unit → Ghost → Prop} (hi : (ip, i) ∈ g.refs) (hfree : R.Free g ip)
    (htyped : R.Typed g i)
    (hQ : ∀ n, g.held ip = none → R.Seen g i n → Q () (g.hold ip (.known n.attr n))) :
    (ilock ip).wp R.spec Q g := by
  have hrest : (Thread.op (Op.acquiresleep ip) >>= fun _ => Thread.op (.load ip)).wp R.spec Q g := by
    rw [Thread.wp_bind]
    refine op_wp ⟨⟨i, hi⟩, hfree⟩ ?_
    rintro _ _ ⟨hnone, rfl⟩
    refine op_wp ⟨⟨i, hi⟩, .unknown, Ghost.hold_held_self, fun _ => htyped.imp_right ?_⟩
      fun _ g' hpost => ?_
    · rintro ⟨A, hA, ht⟩
      exact ⟨A, i, hA, hi, ht⟩
    · obtain ⟨n, hseen, rfl⟩ := hpost.2 Ghost.hold_held_self i hi
      rw [Ghost.hold_hold]
      exact hQ n hnone ⟨hseen.alloc, hseen.good, hseen.alone⟩
  unfold ilock look
  rw [Thread.wp_bind]
  refine op_wp ⟨i, hi⟩ fun f g' hpost => ?_
  obtain ⟨hf, ⟨-, rfl⟩ | ⟨n, hu, -, -, -, rfl⟩⟩ := hpost i hi
  · rw [if_neg (Nat.not_lt.mpr hf.ref)]
    exact hrest
  · -- the process has locked the inode before
    rw [if_neg (Nat.not_lt.mpr hf.ref), Thread.wp_bind]
    have hfree' : R.Free (g.hold ip (.known n.attr n)) ip := by
      rcases hfree with h | h | h
      · exact Or.inl h
      · exact Or.inr (Or.inl h)
      · rw [hu] at h
        cases h
    refine op_wp ⟨⟨i, hi⟩, hfree'⟩ ?_
    · rintro _ _ ⟨hnone, -⟩
      rw [Ghost.hold_held_self] at hnone
      cases hnone

theorem iunlock_wp {Q : Unit → Ghost → Prop} (hi : (ip, i) ∈ g.refs)
    (h : g.held ip = some (.known n.attr n)) (hgood : R.Good i n) (hQ : Q () (g.unlock ip)) :
    (iunlock ip).wp R.spec Q g := by
  have hsome : g.held ip ≠ none := by
    rw [h]
    exact Option.some_ne_none _
  unfold iunlock
  rw [Thread.wp_bind]
  refine op_wp hsome ?_
  rintro _ _ ⟨rfl, rfl⟩
  rw [Thread.wp_bind]
  refine look_wp hi h fun f hf _ => ?_
  have hok : ¬ (true = false ∨ f.ref < 1) := by
    rintro (h | h)
    · cases h
    · exact absurd hf.ref (Nat.not_le.mpr h)
  rw [if_neg hok]
  refine op_wp (Or.inr ⟨i, n, hi, h, hgood⟩) ?_
  rintro _ _ rfl
  exact hQ

def Node.freed (a : Attr) : Node := ⟨{ a with type := T_FREE }, []⟩

/-- The reference is dropped; an inode without links is freed if it was the last one. -/
theorem iput_wp {Q : Unit → Ghost → Prop} (hi : (ip, i) ∈ g.refs) (hfree : R.Free g ip)
    (htx : g.tx = true)
    (hQ : g.held ip = none →
      (∀ A, g.alone = some A → A.others i + g.count ip = 1 → A.Done i) → Q () (g.drop ip i))
    (hQ' : ∀ n, g.held ip = none → R.Seen g i n → n.attr.nlink = 0 →
      (∀ A, g.alone = some A → A.others i + g.count ip = 1) →
      Q () ((g.store i (Node.freed n.attr)).drop ip i)) :
    (iput ip).wp R.spec Q g := by
  -- the end of the function, for a process that owns `g'` apart from the lock
  have hrest : ∀ (g' : Ghost) (h : Held), g'.held ip = none → (ip, i) ∈ g'.refs →
      (h = .unknown ∨ ∃ n, h = .known n.attr n ∧ R.Good i n) →
      (∀ A, g'.alone = some A → A.others i + g'.count ip = 1 → A.Done i) → Q () (g'.drop ip i) →
      (Thread.op (Op.releasesleep ip) >>= fun _ => Thread.op (.unref ip)).wp R.spec Q
        (g'.hold ip h) := by
    intro g' h hnone hi' hh hdone hQ
    rw [Thread.wp_bind]
    refine op_wp ?_ ?_
    · rcases hh with rfl | ⟨n, rfl, hgood⟩
      · exact Or.inl Ghost.hold_held_self
      · exact Or.inr ⟨i, n, hi', Ghost.hold_held_self, hgood⟩
    · rintro _ _ rfl
      rw [Ghost.hold_unlock hnone]
      refine op_wp ⟨⟨i, hi', hdone⟩, hnone⟩ fun _ g'' hpost => ?_
      rw [hpost i hi']
      exact hQ
  unfold iput look
  rw [Thread.wp_bind]
  refine op_wp ⟨⟨i, hi⟩, hfree⟩ ?_
  rintro _ _ ⟨hnone, rfl⟩
  rw [Thread.wp_bind]
  refine op_wp ⟨i, hi⟩ fun f g' hpost => ?_
  obtain ⟨hf, ⟨hinv, rfl⟩ | ⟨n, -, hval, hattr, hseen, rfl⟩⟩ := hpost i hi
  · -- the inode has not been read from the disk
    have hinvalid : ¬ f.valid = true := fun h => hinv ⟨Ghost.hold_held_self, h⟩
    have hdone : ∀ A, g.alone = some A → A.others i + g.count ip = 1 → A.Done i :=
      fun A hA _ => hf.invalid A hA (Bool.eq_false_of_not_eq_true hinvalid)
    rw [if_neg fun h => hinvalid h.1]
    exact hrest g .unknown hnone hi (Or.inl rfl) hdone (hQ hnone hdone)
  · rw [Ghost.hold_hold]
    -- it is kept
    have hkeep : (∀ A, g.alone = some A → A.others i + g.count ip = 1 → A.Done i) →
        (Thread.op (Op.releasesleep ip) >>= fun _ => Thread.op (.unref ip)).wp R.spec Q
          (g.hold ip (.known n.attr n)) := fun hdone =>
      hrest g (.known n.attr n) hnone hi (Or.inr ⟨n, rfl, hseen.good⟩) hdone (hQ hnone hdone)
    refine wp_ite' (fun hlink => ?_) fun hlink => hkeep fun A hA _ => ?_
    · rw [hattr] at hlink
      rw [Thread.wp_bind]
      refine look_wp hi Ghost.hold_held_self fun f' hf' _ => ?_
      dsimp only
      refine wp_ite' (fun hone => ?_) fun hmany => hkeep fun A hA hone => ?_
      · rw [Thread.wp_bind]
        refine op_wp ⟨htx, ⟨i, hi⟩, n.attr, n, Ghost.hold_held_self⟩ fun _ g'' hpost' => ?_
        rw [hpost' i n.attr n hi Ghost.hold_held_self, Ghost.hold_hold]
        refine hrest (g.store i (Node.freed n.attr)) .unknown hnone hi (Or.inl rfl)
          (fun A hA _ => ?_) (hQ' n hnone ⟨hseen.alloc, hseen.good, hseen.alone⟩ hlink.2 fun A hA => ?_)
        · obtain ⟨A₀, -, rfl⟩ := Option.map_eq_some_iff.mp hA
          refine Or.inr (Or.inl ?_)
          show (update A₀.node i _ i).attr.type = _
          rw [update_self]
          rfl
        · exact (hf'.alone A hA).symm.trans hone
      · exact absurd ((hf'.alone A hA).trans hone) hmany
    · refine Or.inr (Or.inr fun hz => hlink ⟨hval, ?_⟩)
      rw [hattr, ← hseen.alone A hA]
      exact hz

end Ops

end DuckoUnix.Inode
