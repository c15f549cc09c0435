import Mathlib.Algebra.BigOperators.Group.Finset.Piecewise
import Mathlib.Algebra.Order.BigOperators.Group.Finset
import DuckoUnix.Lib.Run
import DuckoUnix.Lib.Sum
import DuckoUnix.Inode.ReadWrite
import DuckoUnix.Inode.Rules

/-!
# Writers that share an open file

`filewrite` writes a few blocks at a time: it takes and gives back the lock of the inode for each
chunk, while the offset is in the open file. Any number of calls of `filewrite` on one open file run
at the same time; a step of a call is `begin_op`, `end_op` or the section from `ilock` to `iunlock`.
The chunks of a call then stand in the file one after the other, each of them once, with the chunks of
other calls in between.

The open file is one that can be written to and that is an inode; `filewrite` of a pipe is in `Pipe`.
-/

namespace DuckoUnix.Sys

open Lib Fs Inode Finset Function

/-! ## The code -/

/-- `max` of `filewrite` -/
def maxWrite : ℕ := ((MAXOPBLOCKS - 1 - 1 - 2) / 2) * 512

/-- The loop of `filewrite` from byte `i` on; the first number bounds the iterations. `chunk` is what
stands from `begin_op` to `end_op`, with -1 as none, and `short` is the panic. -/
def filewriteLoop {M : Type → Type 1} [Monad M] (chunk : List (BitVec 8) → M (Option ℕ))
    (short : M ℕ) (src : List (BitVec 8)) : ℕ → ℕ → M ℕ
  | 0, i => return i
  | k + 1, i => do
    if i < src.length then
      let n1 := min (src.length - i) maxWrite
      match ← chunk ((src.drop i).take n1) with
      | none => return i
      | some r => if r ≠ n1 then short else filewriteLoop chunk short src k (i + r)
    else return i

/-- Write to a file that is an inode; none for -1. -/
def filewrite {M : Type → Type 1} [Monad M] (chunk : List (BitVec 8) → M (Option ℕ))
    (short : M ℕ) (src : List (BitVec 8)) : M (Option ℕ) := do
  let i ← filewriteLoop chunk short src src.length 0
  return if i = src.length then some i else none

/-- What stands between `begin_op` and `end_op`, apart from `f->off += r`. -/
def writeAt (ip : Ip) (off : ℕ) (src : List (BitVec 8)) : T (Option ℕ) := do
  ilock ip
  let r ← writei ip src off
  iunlock ip
  return r

/-! ## Calls on one open file -/

inductive WriteOp : Type → Type 1
  | begin_op : WriteOp Unit
  | end_op : WriteOp Unit
  /-- from `ilock` to `iunlock` -/
  | write (src : List (BitVec 8)) : WriteOp (Option ℕ)
  | panic {α : Type} (e : Panic) : WriteOp α

abbrev Call := Thread WriteOp (Option ℕ)

def chunk (src : List (BitVec 8)) : Call := do
  Thread.op .begin_op
  let r ← Thread.op (.write src)
  Thread.op .end_op
  return r

def call (src : List (BitVec 8)) : Call :=
  filewrite chunk (Thread.op (.panic .shortFilewrite)) src

/-- The store, `f->off`, and what is left to do of each call. -/
structure Shared (ι : Type) where
  store : Store
  off : ℕ
  call : ι → Call

variable {ι : Type} [DecidableEq ι]

def WriteOp.code {α : Type} (ip : Ip) : WriteOp α → Prog (Store × ℕ) Halt α
  | .begin_op => fun p => (Fs.begin_op p.1).map fun q => (q.1, q.2, p.2)
  | .end_op => fun p => (Fs.end_op p.1).map fun q => (q.1, q.2, p.2)
  | .write src => fun p =>
    ((writeAt ip p.2 src).code p.1).map fun q => (q.1, q.2, (p.2 + q.1.getD 0) % UINT)
  | .panic e => fun p => .error (e, p.1)

/-- The next step of call `c`, if it has not returned; `ip` is `f->ip`. -/
def Shared.next (ip : Ip) (s : Shared ι) (c : ι) : Option (Except Halt (Shared ι)) :=
  match s.call c with
  | .ret _ => none
  | .ask o k => some ((o.code ip (s.store, s.off)).map fun q =>
      ⟨q.2.1, q.2.2, update s.call c (k q.1)⟩)

/-- A step of call `c` that does not panic. -/
def Shared.step (ip : Ip) (s : Shared ι) (c : ι) : Option (Shared ι) :=
  (s.next ip c).bind Except.toOption

def Shared.start (t : Store) (off : ℕ) (buf : ι → List (BitVec 8)) : Shared ι :=
  ⟨t, off, fun c => Sys.call (buf c)⟩

/-! ## Chunks -/

def piece (src : List (BitVec 8)) (j : ℕ) : List (BitVec 8) := (src.drop (j * maxWrite)).take maxWrite

def npieces (src : List (BitVec 8)) : ℕ := (src.length + (maxWrite - 1)) / maxWrite

/-- The chunks into which a call is split. -/
def pieces (src : List (BitVec 8)) : List (List (BitVec 8)) := (List.range (npieces src)).map (piece src)

variable {src data : List (BitVec 8)} {i j k inum : ℕ} {ip : Ip} {v v' : View}

theorem maxWrite_eq : maxWrite = 1536 := rfl

theorem length_piece_le : (piece src j).length ≤ maxWrite := by
  unfold piece
  rw [List.length_take]
  exact Nat.min_le_left _ _

/-! ## One section -/

/-- The file has these contents, and nobody has locked it. -/
structure Ready (ip : Ip) (i : ℕ) (c : List (BitVec 8)) (v : View) : Prop where
  ref : 0 < (v.ent ip).ref
  inum : (v.ent ip).inum = i
  unlocked : (v.ent ip).locked = false
  type : (v.node i).attr.type = T_FILE
  data : (v.node i).data = c

/-- What `writei` of `src` at `off` does to the bytes of a file; none for -1. -/
def writeBytes (c : List (BitVec 8)) (off : ℕ) (src : List (BitVec 8)) :
    Option ℕ × List (BitVec 8) :=
  if TooFar c off src.length then (none, c) else (some src.length, patch c off src)

theorem tooFar_iff {c : List (BitVec 8)} {off n : ℕ} :
    TooFar c off n ↔ c.length < off ∨ MAXFILE * BSIZE < off + n := by
  have hmax : MAXFILE * BSIZE = 71680 := rfl
  unfold TooFar UINT
  rw [hmax]
  constructor
  · rintro (h | h | h)
    · exact .inl h
    · refine .inr (Nat.lt_of_not_le fun hle => ?_)
      rw [Nat.mod_eq_of_lt (by omega)] at h
      omega
    · exact .inr h
  · rintro (h | h)
    · exact .inl h
    · exact .inr (.inr h)

theorem writeBytes_append (hlen : data.length + src.length ≤ MAXFILE * BSIZE) :
    writeBytes data data.length src = (some src.length, data ++ src) := by
  have hfar : ¬ TooFar data data.length src.length := by
    rw [tooFar_iff]
    omega
  unfold writeBytes patch
  rw [if_neg hfar, List.take_length, List.drop_eq_nil_of_le (Nat.le_add_right _ _), List.append_nil]

/-- The section writes the bytes, or it leaves the file as it is. -/
theorem writeAt_wp (h : Ready ip inum data v)
    (hv : (v.ent ip).valid = true → (v.ent ip).attr.type = (v.nodeOf ip).attr.type)
    (hop : 0 < v.outstanding) (hsrc : src.length ≤ maxWrite) (off : ℕ) :
    wp (fun _ => False) (writeAt ip off src).abs (fun r v' => (r = (writeBytes data off src).1 ∧
      Ready ip inum (writeBytes data off src).2 v' ∧ v'.outstanding = v.outstanding) ∧
      v'.spent ≤ v.spent + 6) v := by
  have hnode : v.nodeOf ip = v.node inum := by
    unfold View.nodeOf
    rw [h.inum]
  unfold writeAt
  simp only [abs_bind, wp_bind, abs_pure, wp_pure]
  refine wp_ilock h.ref h.unlocked (Or.inr ?_) ?_
  · rw [hnode, h.type]
    decide
  have hent := v.lock_ent_self ip
  have hnodes := v.lock_node ip
  have hop₁ := v.lock_outstanding ip
  have hspent₁ := v.lock_spent ip
  generalize v.lock ip = v₁ at hent hnodes hop₁ hspent₁ ⊢
  have htype : (v₁.ent ip).attr.type = T_FILE := by
    rw [hent]
    show (if _ then _ else _ : Attr).type = _
    split_ifs with hval
    · rw [hv hval, hnode, h.type]
    · rw [hnode, h.type]
  have hinum : (v₁.ent ip).inum = inum := by
    rw [hent]
    exact h.inum
  have hnode₁ : v₁.nodeOf ip = v.node inum := by
    unfold View.nodeOf
    rw [hinum, hnodes]
  have hr₁ : 0 < (v₁.ent ip).ref := by
    rw [hent]
    exact h.ref
  have hlock : (v₁.ent ip).locked = true := by rw [hent]
  have hguard : v₁.Live ip ∧ 0 < v₁.outstanding := ⟨⟨hr₁, by rw [hent]⟩, by rw [hop₁]; exact hop⟩
  have hdata : (v₁.nodeOf ip).data = data := by rw [hnode₁, h.data]
  refine wp_writei (by rw [htype]; decide) ?_
  by_cases hfar : TooFar data off src.length
  · have hbytes : writeBytes data off src = (none, data) := if_pos hfar
    rw [hbytes]
    refine wp_of_ok ((if_pos hguard).trans (if_pos (by rw [hdata]; exact hfar))) ?_
    refine wp_iunlock hr₁ hlock ⟨⟨rfl, ⟨?_, ?_, ?_, ?_, ?_⟩, hop₁⟩, ?_⟩
    · rw [View.unlock_ent_self]
      exact hr₁
    · rw [View.unlock_ent_self]
      exact hinum
    · rw [View.unlock_ent_self]
    · show (v₁.node inum).attr.type = _
      rw [hnodes, h.type]
    · show (v₁.node inum).data = _
      rw [hnodes, h.data]
    · show v₁.spent ≤ _
      omega
  · have hbytes : writeBytes data off src = (some src.length, patch data off src) := if_neg hfar
    rw [hbytes]
    refine wp_of_ok ((if_pos hguard).trans (if_neg (by rw [hdata]; exact hfar))) ?_
    have hchunks : chunks off src.length ≤ 5 := by
      have hle : chunks off src.length ≤ src.length / BSIZE + 2 := chunks_le
      have hsrc' : src.length / BSIZE ≤ 3 := by
        rw [maxWrite_eq] at hsrc
        unfold BSIZE
        omega
      omega
    refine wp_iunlock hr₁ hlock ⟨⟨rfl, ⟨?_, ?_, ?_, ?_, ?_⟩, hop₁⟩, ?_⟩
    · rw [View.unlock_ent_self]
      exact hr₁
    · rw [View.unlock_ent_self]
      exact hinum
    · rw [View.unlock_ent_self]
    · show (update v₁.node (v₁.ent ip).inum _ inum).attr.type = _
      rw [hinum, update_self]
      show (if _ then _ else _ : Attr).type = _
      split_ifs
      · exact htype
      · rw [hnode₁, h.type]
    · show (update v₁.node (v₁.ent ip).inum _ inum).data = _
      rw [hinum, update_self]
      show patch (v₁.nodeOf ip).data _ _ = _
      rw [hdata]
    · show v₁.spent + chunks off src.length + 1 ≤ _
      omega

theorem Ready.valid {t : Store} (h : Ready ip inum data v) (hrep : Rep t v)
    (hval : (v.ent ip).valid = true) : (v.ent ip).attr.type = (v.nodeOf ip).attr.type := by
  have hr := h.ref
  rw [hrep.ent] at hr hval ⊢
  rw [hrep.nodeOf hr]
  exact (hrep.live ip hr hval).1

theorem Ready.content {t : Store} (h : Ready ip inum data v) (hrep : Rep t v) :
    content t.disk (dinode t.sb t.disk inum) = data := by
  have hent := hrep.ent ip
  have hpos : 0 < (t.icache ip).ref := by
    have := h.ref
    rwa [hent] at this
  have hinum : (t.icache ip).inum = inum := by
    have := h.inum
    rwa [hent] at this
  have hnode := hrep.node _ (hrep.sound.inum ip hpos)
  rw [hinum] at hnode
  have htype := h.type
  have hdata := h.data
  rw [hnode] at htype hdata
  rw [← hdata]
  exact (if_neg (by rw [show (dinode _ _ _).type = T_FILE from htype]; decide)).symm

theorem ready_view {t : Store} (hr : 0 < (t.icache ip).ref) (hu : (t.icache ip).locked = false)
    (hf : (dinode t.sb t.disk (t.icache ip).inum).type = T_FILE) :
    Ready ip (t.icache ip).inum (content t.disk (dinode t.sb t.disk (t.icache ip).inum))
      (Inode.view t) where
  ref := hr
  inum := rfl
  unlocked := hu
  type := hf
  data := if_neg (by rw [hf]; decide)

/-! ## Where a call is -/

/-- The loop of the call from byte `i` on, and the return. -/
def rest (src : List (BitVec 8)) (k i : ℕ) : Call := do
  let i ← filewriteLoop chunk (Thread.op (.panic .shortFilewrite)) src k i
  return if i = src.length then some i else none

def next (src : List (BitVec 8)) (k i : ℕ) : Option ℕ → Thread WriteOp ℕ
  | none => return i
  | some r =>
    if r ≠ min (src.length - i) maxWrite then Thread.op (.panic .shortFilewrite)
    else filewriteLoop chunk (Thread.op (.panic .shortFilewrite)) src k (i + r)

def after (src : List (BitVec 8)) (k i : ℕ) (r : Option ℕ) : Call := do
  let i ← next src k i r
  return if i = src.length then some i else none

theorem filewriteLoop_succ (hi : i < src.length) :
    filewriteLoop chunk (Thread.op (.panic .shortFilewrite)) src (k + 1) i =
      chunk ((src.drop i).take (min (src.length - i) maxWrite)) >>= next src k i := by
  show (if i < src.length then _ else _) = _
  rw [if_pos hi]
  rfl

theorem rest_succ (hi : i < src.length) : rest src (k + 1) i = .ask .begin_op fun _ =>
    .ask (.write ((src.drop i).take (min (src.length - i) maxWrite))) fun r =>
      .ask .end_op fun _ => after src k i r := by
  unfold rest
  rw [filewriteLoop_succ hi]
  rfl

theorem rest_done : rest src k src.length = .ret (some src.length) := by
  unfold rest
  cases k with
  | zero =>
    show Thread.ret _ = _
    rw [if_pos rfl]
  | succ k =>
    unfold filewriteLoop
    rw [if_neg (Nat.lt_irrefl _)]
    show Thread.ret _ = _
    rw [if_pos rfl]

/-- The call on `src` that has written `j` chunks. -/
inductive At (src : List (BitVec 8)) : ℕ → Call → Prop
  | begin_op (j k : ℕ) (hj : j * maxWrite < src.length) (hk : src.length ≤ k + 1 + j * maxWrite) :
      At src j (.ask .begin_op fun _ => .ask (.write (piece src j)) fun r =>
        .ask .end_op fun _ => after src k (j * maxWrite) r)
  | write (j k : ℕ) (hj : j * maxWrite < src.length) (hk : src.length ≤ k + 1 + j * maxWrite) :
      At src j (.ask (.write (piece src j)) fun r => .ask .end_op fun _ =>
        after src k (j * maxWrite) r)
  | end_op (j k : ℕ) (hj : j * maxWrite < src.length) (hk : src.length ≤ k + 1 + j * maxWrite) :
      At src (j + 1) (.ask .end_op fun _ => after src k (j * maxWrite) (some (piece src j).length))
  | done : At src (npieces src) (.ret (some src.length))

theorem rest_at (hj : j * maxWrite < src.length + maxWrite)
    (hk : src.length ≤ k + min (j * maxWrite) src.length) :
    At src j (rest src k (min (j * maxWrite) src.length)) := by
  by_cases hlt : j * maxWrite < src.length
  · rw [Nat.min_eq_left hlt.le] at hk ⊢
    cases k with
    | zero => omega
    | succ k =>
      have hpiece : (src.drop (j * maxWrite)).take (min (src.length - j * maxWrite) maxWrite) =
          piece src j := by
        unfold piece
        rw [← List.length_drop, Nat.min_comm, ← List.take_eq_take_min]
      rw [rest_succ hlt, hpiece]
      exact .begin_op j k hlt hk
  · have hn : npieces src = j := by
      unfold npieces
      rw [maxWrite_eq] at *
      omega
    rw [Nat.min_eq_right (Nat.not_lt.mp hlt), rest_done]
    have hdone : At src (npieces src) (.ret (some src.length)) := .done
    rwa [hn] at hdone

theorem after_eq (src : List (BitVec 8)) (j k : ℕ) :
    after src k (j * maxWrite) (some (piece src j).length) =
      rest src k (j * maxWrite + (piece src j).length) := by
  have hlen : (piece src j).length = min (src.length - j * maxWrite) maxWrite := by
    unfold piece
    rw [List.length_take, List.length_drop, Nat.min_comm]
  unfold after rest next
  dsimp only
  rw [if_neg (fun h => h hlen)]

theorem after_at (hj : j * maxWrite < src.length) (hk : src.length ≤ k + 1 + j * maxWrite) :
    At src (j + 1) (after src k (j * maxWrite) (some (piece src j).length)) := by
  have hnext : j * maxWrite + (piece src j).length = min ((j + 1) * maxWrite) src.length := by
    unfold piece
    rw [List.length_take, List.length_drop, Nat.succ_mul]
    omega
  rw [after_eq, hnext]
  refine rest_at ?_ ?_
  · rw [Nat.succ_mul]
    omega
  · rw [Nat.succ_mul, maxWrite_eq] at *
    omega

theorem call_at (src : List (BitVec 8)) : At src 0 (Sys.call src) := by
  have h : At src 0 (rest src src.length (min (0 * maxWrite) src.length)) := by
    refine rest_at ?_ (Nat.le_add_right _ _)
    rw [maxWrite_eq]
    omega
  rwa [Nat.zero_mul, Nat.min_eq_left (Nat.zero_le _)] at h

theorem flatten_pieces (src : List (BitVec 8)) (j : ℕ) :
    ((List.range j).map (piece src)).flatten = src.take (j * maxWrite) := by
  induction j with
  | zero => rw [Nat.zero_mul]; rfl
  | succ j ih =>
    rw [List.range_succ, List.map_append, List.flatten_append, ih, Nat.succ_mul, List.take_add]
    show _ ++ (piece src j ++ []) = _
    rw [List.append_nil]
    rfl

/-! ## All calls -/

/-- The chunks that stand in the file, in order, with the calls that wrote them. -/
abbrev History (ι : Type) := List (ι × List (BitVec 8))

def History.bytes (h : History ι) : List (BitVec 8) := (h.map Prod.snd).flatten

def History.of (h : History ι) (c : ι) : List (List (BitVec 8)) :=
  (h.filter fun x => x.1 = c).map Prod.snd

/-- The step is inside of a transaction. -/
def WriteOp.inside {α : Type} : WriteOp α → Bool
  | .begin_op => false
  | _ => true

/-- One for a call that is in a transaction. -/
def inTransaction : Call → ℕ
  | .ret _ => 0
  | .ask o _ => if o.inside then 1 else 0

theorem inTransaction_rest (src : List (BitVec 8)) (k i : ℕ) : inTransaction (rest src k i) = 0 := by
  cases k with
  | zero => rfl
  | succ k =>
    by_cases hi : i < src.length
    · rw [rest_succ hi]
      rfl
    · unfold rest filewriteLoop
      rw [if_neg hi]
      rfl

section All

variable {h : History ι} {c d : ι} {l : List (BitVec 8)}

omit [DecidableEq ι] in
theorem History.bytes_append : History.bytes (h ++ [(c, l)]) = h.bytes ++ l := by
  unfold History.bytes
  rw [List.map_append, List.flatten_append]
  exact congrArg _ (List.append_nil l)

theorem History.of_append_self : History.of (h ++ [(c, l)]) c = h.of c ++ [l] := by
  unfold History.of
  rw [List.filter_append, List.map_append, List.filter_cons_of_pos (by simp), List.filter_nil]
  rfl

theorem History.of_append_of_ne (hd : d ≠ c) : History.of (h ++ [(c, l)]) d = h.of d := by
  unfold History.of
  rw [List.filter_append, List.filter_cons_of_neg (by simpa using hd.symm), List.filter_nil,
    List.append_nil]

variable [Fintype ι]

theorem History.length_bytes (h : History ι) :
    h.bytes.length = ∑ c, (h.of c).flatten.length := by
  induction h using List.reverseRecOn with
  | nil => exact (sum_const_zero).symm
  | append_singleton h x ih =>
    obtain ⟨c, l⟩ := x
    have hof : ∀ d, (History.of (h ++ [(c, l)]) d).flatten.length =
        (History.of h d).flatten.length + if d = c then l.length else 0 := by
      intro d
      by_cases e : d = c
      · rw [e, History.of_append_self, List.flatten_append, List.length_append, if_pos rfl]
        exact congrArg _ (congrArg _ (List.append_nil l))
      · rw [History.of_append_of_ne e, if_neg e, Nat.add_zero]
    rw [History.bytes_append, List.length_append, ih, sum_congr rfl fun d _ => hof d, sum_add_distrib,
      sum_ite_eq' univ c, if_pos (mem_univ c)]

/-- What holds in every state. -/
structure Inv (ip : Ip) (i : ℕ) (buf : ι → List (BitVec 8)) (h : History ι) (s : Shared ι) : Prop where
  view : ∃ v, Rep s.store v ∧ Ready ip i h.bytes v ∧ ∑ c, inTransaction (s.call c) ≤ v.outstanding
  off : s.off = h.bytes.length
  call : ∀ c, ∃ j, h.of c = (List.range j).map (piece (buf c)) ∧ At (buf c) j (s.call c)

variable {buf : ι → List (BitVec 8)} {s s' : Shared ι}

/-- A call that has a chunk to write has room for it. -/
theorem Inv.room (H : Inv ip i buf h s) (hmax : ∑ c, (buf c).length ≤ MAXFILE * BSIZE) (c : ι)
    (hc : h.of c = (List.range j).map (piece (buf c))) (hj : j * maxWrite < (buf c).length) :
    h.bytes.length + (piece (buf c) j).length ≤ MAXFILE * BSIZE := by
  have hle : ∀ d ∈ univ, (h.of d).flatten.length +
      (if d = c then (piece (buf c) j).length else 0) ≤ (buf d).length := by
    intro d _
    by_cases e : d = c
    · rw [e, if_pos rfl, hc, flatten_pieces, List.length_take]
      unfold piece
      rw [List.length_take, List.length_drop]
      omega
    · obtain ⟨j', hd, -⟩ := H.call d
      rw [if_neg e, hd, flatten_pieces, List.length_take]
      omega
  have hsum := sum_le_sum hle
  rw [sum_add_distrib, sum_ite_eq' univ c, if_pos (mem_univ c), ← History.length_bytes] at hsum
  exact hsum.trans hmax

theorem Inv.others {t : Call} {h' : History ι} (H : Inv ip i buf h s)
    (hof : ∀ d, d ≠ c → h'.of d = h.of d)
    (hc : ∃ j, h'.of c = (List.range j).map (piece (buf c)) ∧ At (buf c) j t) (d : ι) :
    ∃ j, h'.of d = (List.range j).map (piece (buf d)) ∧
      At (buf d) j (update s.call c t d) := by
  by_cases e : d = c
  · subst e
    rw [update_self]
    exact hc
  · rw [update_of_ne e, hof d e]
    exact H.call d

/-- What a step may lead to: the invariant holds, or the file system has run out of blocks. -/
def Fine (ip : Ip) (i : ℕ) (buf : ι → List (BitVec 8)) (s : Shared ι) :
    Except Halt (Shared ι) → Prop
  | .ok s' => ∃ h, Inv ip i buf h s'
  | .error e => e.1 = .outOfBlocks ∧ nfree s.store.sb s.store.disk < 6

/-- A step that only changes the number of transactions. -/
theorem Inv.count {t : Call} {u : Store} (f : ℕ → ℕ) (H : Inv ip i buf h s)
    (hof : h.of c = (List.range j).map (piece (buf c))) (hat : At (buf c) j t)
    (hrep : ∀ v, Rep s.store v → Rep u { v with outstanding := f v.outstanding })
    (hin : ∀ n, n + inTransaction t ≤ f n + inTransaction (s.call c)) :
    Inv ip i buf h ⟨u, s.off, update s.call c t⟩ := by
  obtain ⟨v, hv, hready, htx⟩ := H.view
  refine ⟨⟨_, hrep v hv, ⟨hready.ref, hready.inum, hready.unlocked, hready.type, hready.data⟩, ?_⟩,
    H.off, H.others (fun _ _ => rfl) ⟨j, hof, hat⟩⟩
  have hsum := sum_update_add inTransaction s.call c t
  have hn := hin v.outstanding
  show ∑ d, inTransaction (update s.call c t d) ≤ f v.outstanding
  omega

/-- The section writes the next chunk to the end of the file. -/
theorem Inv.write {k : Option ℕ → Call} (H : Inv ip i buf h s)
    (hmax : ∑ c, (buf c).length ≤ MAXFILE * BSIZE)
    (hc : s.call c = .ask (.write (piece (buf c) j)) k)
    (hof : h.of c = (List.range j).map (piece (buf c))) (hj : j * maxWrite < (buf c).length)
    (hat : At (buf c) (j + 1) (k (some (piece (buf c) j).length)))
    (hin : inTransaction (k (some (piece (buf c) j).length)) = 1) :
    Fine ip i buf s (((WriteOp.write (piece (buf c) j)).code ip (s.store, s.off)).map fun q =>
      ⟨q.2.1, q.2.2, update s.call c (k q.1)⟩) := by
  obtain ⟨v, hrep, hready, htx⟩ := H.view
  have hroom := H.room hmax c hof hj
  have hsum := sum_update_add inTransaction s.call c (k (some (piece (buf c) j).length))
  have hout : inTransaction (.ask (.write (piece (buf c) j)) k) = 1 := rfl
  rw [hc, hout, hin, Nat.add_right_cancel_iff] at hsum
  have hone : inTransaction (s.call c) ≤ ∑ d, inTransaction (s.call d) :=
    single_le_sum (f := fun d => inTransaction (s.call d)) (fun _ _ => Nat.zero_le _) (mem_univ c)
  rw [hc, hout] at hone
  have hle : (piece (buf c) j).length ≤ maxWrite := length_piece_le
  have hspec := (T.refines _ hrep).wp_room
    (writeAt_wp hready (hready.valid hrep) (hone.trans htx) hle h.bytes.length)
  rw [writeBytes_append hroom] at hspec
  have hcode : (WriteOp.write (piece (buf c) j)).code ip (s.store, s.off) =
      ((writeAt ip h.bytes.length (piece (buf c) j)).code s.store).map fun q =>
        (q.1, q.2, (h.bytes.length + q.1.getD 0) % UINT) := by
    rw [← H.off]
    rfl
  rw [hcode]
  cases hx : (writeAt ip h.bytes.length (piece (buf c) j)).code s.store with
  | error e => exact wp_error hspec hx
  | ok q =>
    obtain ⟨⟨v', hrep', hq, hready', hop⟩, -⟩ := wp_ok hspec hx
    obtain ⟨r, t⟩ := q
    cases hq
    have hoff : (h.bytes.length + (piece (buf c) j).length) % UINT =
        h.bytes.length + (piece (buf c) j).length := by
      have hmax' : MAXFILE * BSIZE = 71680 := rfl
      refine Nat.mod_eq_of_lt ?_
      unfold UINT
      omega
    refine ⟨h ++ [(c, piece (buf c) j)], ⟨v', hrep', ?_, ?_⟩, ?_, H.others (fun d hd => ?_) ⟨j + 1, ?_, hat⟩⟩
    · rw [History.bytes_append]
      exact hready'
    · show ∑ d, inTransaction (update s.call c _ d) ≤ _
      rw [hsum, hop]
      exact htx
    · rw [History.bytes_append, List.length_append]
      exact hoff
    · exact History.of_append_of_ne hd
    · rw [History.of_append_self, hof, List.range_succ, List.map_append]
      rfl

/-- Every step keeps the invariant. -/
theorem Inv.next (H : Inv ip i buf h s) (hmax : ∑ c, (buf c).length ≤ MAXFILE * BSIZE) (c : ι)
    {r : Except Halt (Shared ι)} (hr : s.next ip c = some r) : Fine ip i buf s r := by
  obtain ⟨j, hof, hat⟩ := H.call c
  unfold Shared.next at hr
  generalize ht : s.call c = t at hr hat
  cases hat with
  | begin_op j k hj hk =>
    cases hr
    refine ⟨h, H.count (fun n => n + 1) hof (.write j k hj hk)
      (fun v hv => ((refines_ok rfl).mp (Op.refines .begin_op hv)).2.1) fun n => ?_⟩
    rw [ht]
    exact Nat.le_refl _
  | write j k hj hk =>
    cases hr
    exact H.write hmax ht hof hj (.end_op j k hj hk) rfl
  | end_op j k hj hk =>
    cases hr
    refine ⟨h, H.count (fun n => n - 1) hof (after_at hj hk)
      (fun v hv => ((refines_ok rfl).mp (Op.refines .end_op hv)).2.1) fun n => ?_⟩
    rw [ht, after_eq, inTransaction_rest]
    exact Nat.le_succ_of_pred_le (Nat.le_refl _)
  | done => cases hr

theorem Inv.start {t : Store} (ht : Consistent t) (hr : 0 < (t.icache ip).ref)
    (hu : (t.icache ip).locked = false)
    (hf : (dinode t.sb t.disk (t.icache ip).inum).type = T_FILE)
    (he : (dinode t.sb t.disk (t.icache ip).inum).size = 0) :
    Inv ip (t.icache ip).inum buf [] (Shared.start t 0 buf) where
  view := by
    have hready := ready_view hr hu hf
    have hempty : content t.disk (dinode t.sb t.disk (t.icache ip).inum) = [] := by
      unfold content
      rw [he]
      rfl
    rw [hempty] at hready
    refine ⟨Inode.view t, ht.rep, hready, ?_⟩
    have hzero : ∀ c, inTransaction (Sys.call (buf c)) = 0 := fun c => inTransaction_rest _ _ _
    show ∑ c, inTransaction (Sys.call (buf c)) ≤ _
    rw [sum_congr rfl fun c _ => hzero c, sum_const_zero]
    exact Nat.zero_le _
  off := rfl
  call c := ⟨0, rfl, call_at (buf c)⟩

/-- A call that cannot go on has written all of its chunks. -/
theorem Inv.returned (H : Inv ip i buf h s) (hc : s.next ip c = none) :
    s.call c = .ret (some (buf c).length) ∧ h.of c = pieces (buf c) := by
  obtain ⟨j, hof, hat⟩ := H.call c
  unfold Shared.next at hc
  generalize s.call c = t at hc hat ⊢
  cases hat with
  | begin_op j k hj hk => cases hc
  | write j k hj hk => cases hc
  | end_op j k hj hk => cases hc
  | done => exact ⟨rfl, hof⟩

omit [DecidableEq ι] [Fintype ι] in
theorem flatten_all_pieces (src : List (BitVec 8)) : (pieces src).flatten = src := by
  unfold pieces
  rw [flatten_pieces, List.take_of_length_le]
  unfold npieces
  rw [maxWrite_eq]
  omega

/-- For any interleaving of calls of `filewrite` on one open file, whose inode is a regular file that
is empty: in every state that is reached, a call stops only if fewer than six blocks are free, and a
call that has returned has returned the number of its bytes. When all calls have returned, the file
holds the chunks of all calls, those of each call once and in order, and the offset is the number of
all bytes. -/
theorem filewrite_shared {t : Store} (ht : Consistent t) (hr : 0 < (t.icache ip).ref)
    (hu : (t.icache ip).locked = false)
    (hf : (dinode t.sb t.disk (t.icache ip).inum).type = T_FILE)
    (he : (dinode t.sb t.disk (t.icache ip).inum).size = 0)
    (hmax : ∑ c, (buf c).length ≤ MAXFILE * BSIZE) {cs : List ι}
    (hs : run (Shared.step ip) (Shared.start t 0 buf) cs = some s) :
    (∀ c e, s.next ip c = some (.error e) →
      e.1 = .outOfBlocks ∧ nfree s.store.sb s.store.disk < 6) ∧
    (∀ c, s.next ip c = none → s.call c = .ret (some (buf c).length)) ∧
    ((∀ c, s.next ip c = none) → ∃ h : History ι,
      content s.store.disk (dinode s.store.sb s.store.disk (t.icache ip).inum) = h.bytes ∧
      (∀ c, h.of c = pieces (buf c)) ∧ s.off = ∑ c, (buf c).length) := by
  have hstep : ∀ (s : Shared ι) c s', (∃ h, Inv ip (t.icache ip).inum buf h s) →
      Shared.step ip s c = some s' → ∃ h, Inv ip (t.icache ip).inum buf h s' := by
    rintro s c s' ⟨h, H⟩ hs'
    obtain ⟨r, hr, hrs⟩ := Option.bind_eq_some_iff.mp hs'
    have hfine := H.next hmax c hr
    cases r with
    | error e => cases hrs
    | ok s₁ =>
      cases hrs
      exact hfine
  obtain ⟨h, H⟩ := run_invariant' hstep ⟨[], Inv.start ht hr hu hf he⟩ hs
  refine ⟨fun c e hc => H.next hmax c hc, fun c hc => (H.returned hc).1, fun hall => ⟨h, ?_,
    fun c => (H.returned (hall c)).2, ?_⟩⟩
  · obtain ⟨v, hrep, hready, -⟩ := H.view
    exact hready.content hrep
  · rw [H.off, History.length_bytes]
    refine sum_congr rfl fun c _ => ?_
    rw [(H.returned (hall c)).2, flatten_all_pieces]

end All

/-! ### Two calls -/

/-- An empty file that is open. -/
def openStore : Store := emptyStore.put ip0 { emptyStore.icache ip0 with locked := false }

theorem openStore_consistent : Consistent openStore := by
  have hnode : ∀ i < emptyStore.sb.nino, (dinode emptyStore.sb emptyStore.disk i).type ≠ T_FREE →
      dinode emptyStore.sb emptyStore.disk i = emptyFile := by
    intro i hi ht
    have hd : dinode emptyStore.sb emptyStore.disk i = _ := emptyDisk_dinode hi
    rw [hd] at ht ⊢
    split_ifs at ht ⊢ with e
    · rfl
    · exact absurd rfl ht
  have h : Consistent emptyStore := by
    refine ⟨emptyStore_sound, fun i hi ht => ?_, fun ip hr _ => ?_, rfl⟩
    · rw [hnode i hi ht]
      exact fun _ hbn => absurd hbn (Nat.not_lt_zero _)
    · have hd : dinode emptyStore.sb emptyStore.disk 1 = emptyFile := emptyDisk_dinode (by decide)
      rw [(emptyStore_entry hr).2]
      exact ⟨congrArg Dinode.type hd.symm, by decide⟩
  have hfits : Fits emptyStore ip0 { emptyStore.icache ip0 with locked := false } :=
    have hf := h.rep.fits ip0
    ⟨hf.inum, hf.unique, hf.size, hf.addrs, hf.type⟩
  exact (h.rep.put hfits rfl rfl).consistent

theorem filewrite_shared_two : ∃ (s : Shared Bool) (h : History Bool),
    run (Shared.step ip0) (Shared.start openStore 0 fun c => if c then [105] else [104])
      [false, true, true, false, false, true] = some s ∧
    content s.store.disk (dinode s.store.sb s.store.disk 1) = h.bytes ∧
    (h.of false = [[104]] ∧ h.of true = [[105]]) ∧ s.off = 2 := by
  have hrun : ((run (Shared.step ip0) (Shared.start openStore 0 fun c => if c then [105] else [104])
      [false, true, true, false, false, true]).map fun s =>
        (s.next ip0 false).isNone && (s.next ip0 true).isNone) = some true := by decide +kernel
  obtain ⟨s, hs, hnone⟩ := Option.map_eq_some_iff.mp hrun
  rw [Bool.and_eq_true, Option.isNone_iff_eq_none, Option.isNone_iff_eq_none] at hnone
  obtain ⟨-, -, hfinal⟩ := filewrite_shared openStore_consistent (by decide) (by decide)
    (by decide +kernel) (by decide +kernel) (by decide) hs
  obtain ⟨h, hbytes, hof, hoff⟩ := hfinal fun c => by
    cases c with
    | false => exact hnone.1
    | true => exact hnone.2
  exact ⟨s, h, hs, hbytes, ⟨hof false, hof true⟩, hoff⟩

end DuckoUnix.Sys
