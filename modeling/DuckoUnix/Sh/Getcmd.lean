import Mathlib.Data.List.DropRight
import DuckoUnix.Lib.Bytes
import DuckoUnix.Lib.Run

/-!
# Reading a line

`getcmd` with its line editing and the history behind the arrow keys. Reading the keys does not depend
on what they do, so the reads of a call are first cut into keys; `edit` is the body of the loop for one
key and faults when it would touch a byte outside an array or an entry that has not been entered.

`Key.edit` is the editor the loop stands for: a position in the list of entries and a line. The loop
refines it from every position, and the entries are always the last lines entered. Only the start is not
the editor's: `history_index` is -1, before the position of an empty history, and the first `Down` moves
to it and clears the line.
-/

namespace DuckoUnix.Sh.Getcmd

open Lib Function

def HISTORY_SIZE : ℕ := 10
def CMD_BUF_SIZE : ℕ := 100

/-! ## Strings in arrays -/

/-- A store into an array of `n` bytes. -/
def store (n : ℕ) (m : Bytes) (i : ℕ) (c : BitVec 8) : Option Bytes :=
  if i < n then some (update m i c) else none

/-- `strcpy` from byte `k` on, into an array of `n` bytes and out of one with `r` bytes left. -/
def strcpy (n : ℕ) : ℕ → ℕ → Bytes → Bytes → Option Bytes
  | 0, _, _, _ => none
  | r + 1, k, s, t =>
    (store n s k (t k)).bind fun s => if t k = 0 then some s else strcpy n r (k + 1) s t

def strlen : ℕ → ℕ → Bytes → Option ℕ
  | 0, _, _ => none
  | r + 1, k, t => if t k = 0 then some k else strlen r (k + 1) t

/-- The string that starts at byte `k`, in an array with `r` bytes left. -/
def str : ℕ → ℕ → Bytes → List (BitVec 8)
  | 0, _, _ => []
  | r + 1, k, t => if t k = 0 then [] else t k :: str r (k + 1) t

/-! ## The keys of a line -/

inductive Key
  | char (c : BitVec 8)
  | backspace
  | up
  | down
  | escape
  deriving DecidableEq

inductive End
  | enter
  | eof
  deriving DecidableEq

/-- The key of an escape sequence. -/
def sequence (a b : BitVec 8) : Key :=
  if a = 0x5b then
    if b = 0x41 then .up else if b = 0x42 then .down else .escape
  else .escape

/-- What a call reads: the keys up to the end of the line, how it ends, and the reads left. A read gives
a byte, or none at the end of the input or on an error. -/
def readLine : List (Option (BitVec 8)) → List Key × End × List (Option (BitVec 8))
  | [] => ([], .eof, [])
  | none :: rs => ([], .eof, rs)
  | some c :: rs =>
    if c = 0x0a ∨ c = 0x0d then ([], .enter, rs)
    else if c = 0x08 ∨ c = 127 then (readLine rs).map (.backspace :: ·) id
    else if c = 0x1b then
      match rs with
      | some a :: some b :: rs => (readLine rs).map (sequence a b :: ·) id
      | some _ :: none :: rs => (readLine rs).map (.escape :: ·) id
      | none :: rs => (readLine rs).map (.escape :: ·) id
      | [some _] => ([.escape], .eof, [])
      | [] => ([.escape], .eof, [])
    else (readLine rs).map (.char c :: ·) id

/-! ## The loop -/

structure History where
  history : ℕ → Bytes
  count : ℕ
  index : ℤ

structure Editor extends History where
  buf : Bytes
  i : ℕ

/-- The line becomes an entry of the history. -/
def load (nbuf : ℕ) (e : Editor) (j : ℤ) : Option Editor :=
  if 0 ≤ j ∧ j < e.count then do
    let buf ← strcpy nbuf CMD_BUF_SIZE 0 e.buf (e.history j.toNat)
    let i ← strlen nbuf 0 buf
    some { e with index := j, buf, i }
  else none

def edit (nbuf : ℕ) (e : Editor) : Key → Option Editor
  | .char c =>
    if e.i < nbuf - 1 then do
      let buf ← store nbuf e.buf e.i c
      some { e with buf, i := e.i + 1 }
    else some e
  | .backspace => some { e with i := e.i - 1 }
  | .up => if 0 < e.count ∧ 0 < e.index then load nbuf e (e.index - 1) else some e
  | .down =>
    if e.index < e.count - 1 then load nbuf e (e.index + 1)
    else if e.index = e.count - 1 then do
      let buf ← store nbuf e.buf 0 0
      some { e with index := e.index + 1, buf, i := 0 }
    else some e
  | .escape => some e

/-- The older entries move down: the rounds 1 to `n` of the loop. -/
def shift (rows : ℕ → Bytes) : ℕ → Option (ℕ → Bytes)
  | 0 => some rows
  | j + 1 => do
    let rows ← shift rows j
    let row ← strcpy CMD_BUF_SIZE CMD_BUF_SIZE 0 (rows j) (rows (j + 1))
    some (update rows j row)

/-- The line is saved in the history. -/
def save (nbuf : ℕ) (h : History) (buf : Bytes) : Option History :=
  if h.count < HISTORY_SIZE then do
    let row ← strcpy CMD_BUF_SIZE nbuf 0 (h.history h.count) buf
    some { h with history := update h.history h.count row, count := h.count + 1 }
  else do
    let rows ← shift h.history (HISTORY_SIZE - 1)
    let row ← strcpy CMD_BUF_SIZE nbuf 0 (rows (HISTORY_SIZE - 1)) buf
    some { h with history := update rows (HISTORY_SIZE - 1) row }

/-- A newline or carriage return. -/
def enter (nbuf : ℕ) (e : Editor) : Option Editor := do
  let buf ← store nbuf e.buf e.i 0
  let h ← if 0 < e.i then save nbuf e.toHistory buf else some e.toHistory
  some { h with index := h.count, buf, i := e.i }

/-- The buffer is cleared. -/
def History.newLine (h : History) : Editor := { h with buf := fun _ => 0, i := 0 }

def getcmd (nbuf : ℕ) (h : History) (rs : List (Option (BitVec 8))) :
    Option (ℤ × Editor × List (Option (BitVec 8))) := do
  let e ← run (edit nbuf) h.newLine (readLine rs).1
  let e ← match (readLine rs).2.1 with
    | .enter => enter nbuf e
    | .eof => some e
  some (if e.buf 0 = 0 ∧ e.i = 0 then -1 else 0, e, (readLine rs).2.2)

/-- The calls of `getcmd`: the reads left, and the strings returned for the lines that were ended. -/
structure Session extends History where
  input : List (Option (BitVec 8))
  returned : List (List (BitVec 8))

def call (s : Session) (_ : Unit) : Option Session := do
  let (_, e, rest) ← getcmd CMD_BUF_SIZE s.toHistory s.input
  some { e.toHistory with
    input := rest
    returned := match (readLine s.input).2.1 with
      | .enter => s.returned ++ [str CMD_BUF_SIZE 0 e.buf]
      | .eof => s.returned }

def init (rs : List (Option (BitVec 8))) : Session := ⟨⟨fun _ _ => 0, 0, -1⟩, rs, []⟩

/-! ## The editor -/

/-- What a key does to the position in the entries and to the line. The position behind the last entry
is that of a new line. -/
def Key.edit (L : List (List (BitVec 8))) (p : ℤ × List (BitVec 8)) : Key → ℤ × List (BitVec 8)
  | .char c => (p.1, if p.2.length < CMD_BUF_SIZE - 1 then p.2 ++ [c] else p.2)
  | .backspace => (p.1, p.2.dropLast)
  | .up => if 0 < p.1 then (p.1 - 1, L.getD (p.1 - 1).toNat []) else p
  | .down => if p.1 < L.length then (p.1 + 1, L.getD (p.1 + 1).toNat []) else p
  | .escape => p

/-- The last of the lines that are not empty. -/
def recent (ls : List (List (BitVec 8))) : List (List (BitVec 8)) :=
  (ls.filter (· ≠ [])).rtake HISTORY_SIZE

/-- The reference editor: a new line starts behind the last entry. -/
structure Reference where
  input : List (Option (BitVec 8))
  returned : List (List (BitVec 8))
  pos : ℤ

def Reference.call (r : Reference) : Reference :=
  let p := (readLine r.input).1.foldl (Key.edit (recent r.returned)) (r.pos, [])
  match (readLine r.input).2.1 with
  | .enter => ⟨(readLine r.input).2.2, r.returned ++ [p.2], (recent (r.returned ++ [p.2])).length⟩
  | .eof => ⟨(readLine r.input).2.2, r.returned, p.1⟩

/-- `Down` is not pressed on a line that is not empty before the first line has been entered. -/
def NoFirstDown (s : Session) (_ : Unit) : Prop :=
  Meets (edit CMD_BUF_SIZE) (fun e k => e.index = -1 → k = .down → e.i = 0)
    s.newLine (readLine s.input).1

instance (s : Session) (u : Unit) : Decidable (NoFirstDown s u) :=
  inferInstanceAs (Decidable (Meets _ _ _ _))

def History.entries (h : History) : List (List (BitVec 8)) :=
  (List.range h.count).map fun j => str CMD_BUF_SIZE 0 (h.history j)

def Editor.line (e : Editor) : List (BitVec 8) := (List.range e.i).map e.buf

structure History.Good (h : History) : Prop where
  count_le : h.count ≤ HISTORY_SIZE
  short : ∀ l ∈ h.entries, l.length < CMD_BUF_SIZE
  index_ge : -1 ≤ h.index
  index_le : h.index ≤ h.count

variable {n r k : ℕ} {s t m : Bytes} {l : List (BitVec 8)} {h : History} {e : Editor}

/-! ## Strings -/

theorem zero_notMem_str : 0 ∉ str r k t := by
  induction r generalizing k with
  | zero => exact List.not_mem_nil
  | succ r ih =>
    rw [str]
    split_ifs with h0
    · exact List.not_mem_nil
    · exact List.not_mem_cons_of_ne_of_not_mem (Ne.symm h0) ih

theorem map_range_str : (List.range' k (str r k t).length).map t = str r k t := by
  induction r generalizing k with
  | zero => rfl
  | succ r ih =>
    rw [str]
    split_ifs
    · rfl
    · rw [List.length_cons, List.range'_succ, List.map_cons, ih]

/-- The string of an array that holds `l` with a NUL behind it. -/
theorem str_eq_takeWhile (hl : (List.range' k l.length).map t = l) (hz : t (k + l.length) = 0)
    (hlt : l.length < r) : str r k t = l.takeWhile (· ≠ 0) := by
  induction l generalizing r k with
  | nil =>
    obtain ⟨r, rfl⟩ : ∃ r', r = r' + 1 := ⟨r - 1, by simp at hlt; omega⟩
    exact if_pos hz
  | cons c l ih =>
    obtain ⟨r, rfl⟩ : ∃ r', r = r' + 1 := ⟨r - 1, by simp at hlt; omega⟩
    rw [List.length_cons, List.range'_succ, List.map_cons, List.cons.injEq] at hl
    rw [str, hl.1]
    by_cases h0 : c = 0
    · rw [if_pos h0, List.takeWhile_cons_of_neg (by simpa using h0)]
    · rw [if_neg h0, List.takeWhile_cons_of_pos (by simpa using h0)]
      refine congrArg (c :: ·) (ih hl.2 ?_ (by simpa using hlt))
      rw [← hz, List.length_cons]
      congr 1
      omega

theorem str_congr (hs : ∀ j, k ≤ j → j ≤ k + (str r k t).length → s j = t j) :
    str r k s = str r k t := by
  induction r generalizing k with
  | zero => rfl
  | succ r ih =>
    rw [str, str, hs k (Nat.le_refl k) (Nat.le_add_right _ _)]
    split_ifs with h0
    · rfl
    · refine congrArg (t k :: ·) (ih fun j hj hle => hs j (by omega) ?_)
      rw [str, if_neg h0, List.length_cons]
      omega

theorem strlen_eq (h : (str r k t).length < r) : strlen r k t = some (k + (str r k t).length) := by
  induction r generalizing k with
  | zero => exact absurd h (Nat.not_lt_zero _)
  | succ r ih =>
    rw [str] at h ⊢
    rw [strlen]
    split_ifs at h ⊢
    · rfl
    · rw [ih (by simpa using h), List.length_cons]
      congr 1
      omega

/-- `strcpy` copies the string and its NUL and leaves the other bytes. -/
theorem strcpy_eq (hr : (str r k t).length < r) (hn : k + (str r k t).length < n) :
    ∃ s', strcpy n r k s t = some s' ∧
      ∀ j, s' j = if k ≤ j ∧ j ≤ k + (str r k t).length then t j else s j := by
  induction r generalizing k s with
  | zero => exact absurd hr (Nat.not_lt_zero _)
  | succ r ih =>
    have hk : k < n := by omega
    rw [str] at hr hn ⊢
    rw [strcpy, store, if_pos hk, Option.bind_some]
    split_ifs at hr hn ⊢ with h0
    · refine ⟨_, rfl, fun j => ?_⟩
      rcases eq_or_ne j k with rfl | hj
      · simp
      · rw [update_of_ne hj, if_neg (by simp; omega)]
    · rw [List.length_cons] at hr hn ⊢
      obtain ⟨s', hs', heq⟩ := @ih (k + 1) (update s k (t k)) (by omega) (by omega)
      refine ⟨s', hs', fun j => ?_⟩
      rw [heq]
      rcases eq_or_ne j k with rfl | hj
      · rw [if_neg (by omega), if_pos (by omega), update_self]
      · rw [update_of_ne hj]
        exact if_congr (by omega) rfl rfl

theorem strcpy_str (hr : (str r 0 t).length < r) (hn : (str r 0 t).length < n) :
    ∃ s', strcpy n r 0 s t = some s' ∧ str r 0 s' = str r 0 t := by
  obtain ⟨s', hs', heq⟩ := strcpy_eq (s := s) hr (by rwa [Nat.zero_add])
  refine ⟨s', hs', str_congr fun j hj hle => ?_⟩
  rw [heq, if_pos ⟨hj, hle⟩]

/-! ## The loop refines the editor -/

theorem History.length_entries (h : History) : h.entries.length = h.count := by
  simp [History.entries]

theorem History.entries_getD {j : ℕ} (hj : j < h.count) :
    h.entries.getD j [] = str CMD_BUF_SIZE 0 (h.history j) := by
  simp [History.entries, hj]

theorem History.zero_notMem_entries : ∀ l ∈ h.entries, (0 : BitVec 8) ∉ l := by
  intro l hl
  obtain ⟨j, -, rfl⟩ := List.mem_map.mp hl
  exact zero_notMem_str

@[simp] theorem Editor.length_line (e : Editor) : e.line.length = e.i := by
  simp [Editor.line]

/-- The result of a key: the history is left alone, and position and line are those of the editor. -/
structure Edited (e : Editor) (p : ℤ × List (BitVec 8)) (e' : Editor) : Prop where
  history : e'.history = e.history
  count : e'.count = e.count
  index : e'.index = p.1
  line : e'.line = p.2
  good : e'.Good
  i_lt : e'.i < CMD_BUF_SIZE

theorem Edited.entries {p : ℤ × List (BitVec 8)} {e' : Editor} (h : Edited e p e') :
    e'.entries = e.entries := by
  rw [History.entries, History.entries, h.history, h.count]

theorem History.Good.row (hg : h.Good) {j : ℕ} (hj : j < h.count) :
    (str CMD_BUF_SIZE 0 (h.history j)).length < CMD_BUF_SIZE :=
  hg.short _ (List.mem_map_of_mem (List.mem_range.mpr hj))

theorem History.Good.move (hg : h.Good) {j : ℤ} (hge : -1 ≤ j) (hle : j ≤ h.count) :
    ({ h with index := j } : History).Good :=
  ⟨hg.count_le, hg.short, hge, hle⟩

theorem load_edited (hg : e.Good) {j : ℤ} (h0 : 0 ≤ j) (hj : j < e.count) :
    ∃ e', load CMD_BUF_SIZE e j = some e' ∧ Edited e (j, e.entries.getD j.toNat []) e' := by
  have hlt : j.toNat < e.count := by omega
  have hrow := hg.row hlt
  obtain ⟨buf, hbuf, hstr⟩ := strcpy_str (s := e.buf) hrow hrow
  have hlen := strlen_eq (hstr ▸ hrow)
  rw [Nat.zero_add] at hlen
  refine ⟨{ e with index := j, buf, i := (str CMD_BUF_SIZE 0 buf).length }, ?_, rfl, rfl, rfl, ?_,
    hg.move (by omega) (by omega), hstr ▸ hrow⟩
  · simp [load, h0, hj, hbuf, hlen]
  · rw [History.entries_getD hlt, ← hstr, Editor.line, List.range_eq_range']
    exact map_range_str

theorem Editor.line_char (e : Editor) (c : BitVec 8) :
    ({ e with buf := update e.buf e.i c, i := e.i + 1 } : Editor).line = e.line ++ [c] := by
  simp only [Editor.line, List.range_succ, List.map_append, List.map_cons, List.map_nil, update_self]
  refine congrArg (· ++ [c]) (List.map_congr_left fun j hj => update_of_ne ?_ _ _)
  exact Nat.ne_of_lt (List.mem_range.mp hj)

theorem Editor.line_backspace (e : Editor) : ({ e with i := e.i - 1 } : Editor).line = e.line.dropLast := by
  cases hi : e.i with
  | zero => simp [Editor.line, hi]
  | succ i => simp [Editor.line, hi, List.range_succ]

theorem edit_edited (hg : e.Good) (hi : e.i < CMD_BUF_SIZE) (k : Key) :
    ∃ e', edit CMD_BUF_SIZE e k = some e' ∧ Edited e (k.edit e.entries (e.index, e.line)) e' := by
  have hle := hg.index_le
  have hge := hg.index_ge
  cases k with
  | char c =>
    simp only [edit, Key.edit, Editor.length_line]
    split_ifs with hlt
    · rw [store, if_pos hi]
      exact ⟨_, rfl, rfl, rfl, rfl, e.line_char c, hg.move hge hle, by simp only; omega⟩
    · exact ⟨e, rfl, rfl, rfl, rfl, rfl, hg, hi⟩
  | backspace => exact ⟨_, rfl, rfl, rfl, rfl, e.line_backspace, hg.move hge hle, by simp only; omega⟩
  | up =>
    simp only [edit, Key.edit]
    by_cases hpos : 0 < e.index
    · rw [if_pos ⟨by omega, hpos⟩, if_pos hpos]
      exact load_edited hg (by omega) (by omega)
    · rw [if_neg (fun h => hpos h.2), if_neg hpos]
      exact ⟨e, rfl, rfl, rfl, rfl, rfl, hg, hi⟩
  | down =>
    simp only [edit, Key.edit, History.length_entries]
    split_ifs with hlt hd heq hd hd
    · exact load_edited hg (by omega) (by omega)
    · omega
    · rw [store, if_pos (by decide)]
      refine ⟨_, rfl, rfl, rfl, rfl, ?_, hg.move (by omega) (by omega), Nat.zero_lt_succ 99⟩
      have hlen : e.entries.length ≤ (e.index + 1).toNat := by
        rw [History.length_entries]
        omega
      rw [List.getD_eq_getElem?_getD, List.getElem?_eq_none hlen]
      rfl
    · omega
    · omega
    · exact ⟨e, rfl, rfl, rfl, rfl, rfl, hg, hi⟩
  | escape => exact ⟨e, rfl, rfl, rfl, rfl, rfl, hg, hi⟩

theorem run_edited (hg : e.Good) (hi : e.i < CMD_BUF_SIZE) (ks : List Key) :
    ∃ e', run (edit CMD_BUF_SIZE) e ks = some e' ∧
      Edited e (ks.foldl (Key.edit e.entries) (e.index, e.line)) e' := by
  induction ks generalizing e with
  | nil => exact ⟨e, rfl, rfl, rfl, rfl, rfl, hg, hi⟩
  | cons k ks ih =>
    obtain ⟨e₁, h₁, hed⟩ := edit_edited hg hi k
    obtain ⟨e₂, h₂, hed'⟩ := ih hed.good hed.i_lt
    refine ⟨e₂, run_cons_eq_some.mpr ⟨e₁, h₁, h₂⟩, ?_⟩
    rw [hed.entries, hed.index, hed.line] at hed'
    exact ⟨hed'.history.trans hed.history, hed'.count.trans hed.count, hed'.index, hed'.line,
      hed'.good, hed'.i_lt⟩

/-! ## The history -/

theorem shift_eq {rows : ℕ → Bytes} (hrows : ∀ j, j ≤ n → (str CMD_BUF_SIZE 0 (rows j)).length < CMD_BUF_SIZE) :
    ∃ rows', shift rows n = some rows' ∧
      (∀ j < n, str CMD_BUF_SIZE 0 (rows' j) = str CMD_BUF_SIZE 0 (rows (j + 1))) ∧
      ∀ j, n ≤ j → rows' j = rows j := by
  induction n with
  | zero => exact ⟨rows, rfl, fun j hj => absurd hj (Nat.not_lt_zero j), fun j _ => rfl⟩
  | succ n ih =>
    obtain ⟨rows₁, h₁, hlow, hhigh⟩ := ih fun j hj => hrows j (by omega)
    have hrow : rows₁ (n + 1) = rows (n + 1) := hhigh _ (by omega)
    have hlen := hrows (n + 1) (Nat.le_refl _)
    obtain ⟨row, hcpy, hstr⟩ := strcpy_str (s := rows₁ n) hlen hlen
    refine ⟨update rows₁ n row, by simp [shift, h₁, hrow, hcpy], fun j hj => ?_, fun j hj => ?_⟩
    · rcases eq_or_ne j n with rfl | hne
      · rw [update_self, hstr]
      · rw [update_of_ne hne, hlow j (by omega)]
    · rw [update_of_ne (by omega), hhigh j (by omega)]

theorem History.Good.save_eq (hg : h.Good) (hlt : (str CMD_BUF_SIZE 0 m).length < CMD_BUF_SIZE) :
    ∃ h', save CMD_BUF_SIZE h m = some h' ∧ h'.count ≤ HISTORY_SIZE ∧
      h'.entries = h.entries.rtake (HISTORY_SIZE - 1) ++ [str CMD_BUF_SIZE 0 m] := by
  have hle := hg.count_le
  have hSIZE : HISTORY_SIZE = 10 := rfl
  by_cases hfull : h.count < HISTORY_SIZE
  · obtain ⟨row, hcpy, hstr⟩ := strcpy_str (s := h.history h.count) hlt hlt
    refine ⟨⟨update h.history h.count row, h.count + 1, h.index⟩, by simp [save, hfull, hcpy], hfull, ?_⟩
    have hshort : h.entries.length - (HISTORY_SIZE - 1) = 0 := by
      rw [History.length_entries]
      omega
    rw [List.rtake, hshort, List.drop_zero]
    simp only [History.entries, List.range_succ, List.map_append, List.map_cons, List.map_nil,
      update_self, hstr]
    refine congrArg (· ++ _) (List.map_congr_left fun j hj => ?_)
    rw [update_of_ne (Nat.ne_of_lt (List.mem_range.mp hj))]
  · have hcount : h.count = HISTORY_SIZE - 1 + 1 := by omega
    obtain ⟨rows, hrows, hlow, -⟩ := @shift_eq (HISTORY_SIZE - 1) h.history
      fun j hj => hg.row (by omega)
    obtain ⟨row, hcpy, hstr⟩ := strcpy_str (s := rows (HISTORY_SIZE - 1)) hlt hlt
    refine ⟨⟨update rows (HISTORY_SIZE - 1) row, h.count, h.index⟩,
      by simp [save, hfull, hrows, hcpy], hle, ?_⟩
    have hone : h.entries.length - (HISTORY_SIZE - 1) = 1 := by
      rw [History.length_entries]
      omega
    have hold : h.entries.drop 1 =
        (List.range (HISTORY_SIZE - 1)).map fun j => str CMD_BUF_SIZE 0 (h.history (j + 1)) := by
      rw [History.entries, hcount, List.range_succ_eq_map, List.map_cons, List.drop_succ_cons,
        List.drop_zero, List.map_map]
      rfl
    rw [List.rtake, hone, hold]
    simp only [History.entries, hcount, List.range_succ, List.map_append, List.map_cons, List.map_nil,
      update_self, hstr]
    refine congrArg (· ++ _) (List.map_congr_left fun j hj => ?_)
    rw [update_of_ne (Nat.ne_of_lt (List.mem_range.mp hj)), hlow j (List.mem_range.mp hj)]

/-- The result of ending the line. -/
structure Entered (e e' : Editor) : Prop where
  line : e'.line = e.line
  nul : e'.buf e'.i = 0
  str : str CMD_BUF_SIZE 0 e'.buf = e.line.takeWhile (· ≠ 0)
  index : e'.index = e'.count
  good : e'.Good
  entries : e'.entries = if e.line = [] then e.entries
    else e.entries.rtake (HISTORY_SIZE - 1) ++ [e.line.takeWhile (· ≠ 0)]

theorem enter_entered (hg : e.Good) (hi : e.i < CMD_BUF_SIZE) :
    ∃ e', enter CMD_BUF_SIZE e = some e' ∧ Entered e e' := by
  have hline : (List.range e.i).map (update e.buf e.i 0) = e.line :=
    List.map_congr_left fun j hj => update_of_ne (Nat.ne_of_lt (List.mem_range.mp hj)) _ _
  have hstr : str CMD_BUF_SIZE 0 (update e.buf e.i 0) = e.line.takeWhile (· ≠ 0) := by
    refine str_eq_takeWhile ?_ ?_ ?_
    · rw [← List.range_eq_range', Editor.length_line, hline]
    · rw [Editor.length_line, Nat.zero_add, update_self]
    · rwa [Editor.length_line]
  have hnil : e.line = [] ↔ ¬ 0 < e.i := by
    rw [← List.length_eq_zero_iff, Editor.length_line]
    omega
  have hlt : (str CMD_BUF_SIZE 0 (update e.buf e.i 0)).length < CMD_BUF_SIZE := by
    rw [hstr]
    refine Nat.lt_of_le_of_lt (List.takeWhile_prefix _).length_le ?_
    rwa [Editor.length_line]
  by_cases hpos : 0 < e.i
  · obtain ⟨h', hsave, hcount, hent⟩ := hg.save_eq hlt
    have hshort : ∀ l ∈ h'.entries, l.length < CMD_BUF_SIZE := by
      intro l hl
      rw [hent] at hl
      rcases List.mem_append.mp hl with hl | hl
      · exact hg.short l (List.mem_of_mem_drop hl)
      · rw [List.mem_singleton.mp hl]
        exact hlt
    refine ⟨{ h' with index := h'.count, buf := update e.buf e.i 0, i := e.i },
      by simp only [enter, store, hi, hpos, hsave, if_true, bind, Option.bind_some], hline, update_self _ _ _, hstr, rfl,
      ⟨hcount, hshort, by simp only; omega, Int.le_refl _⟩, ?_⟩
    rw [if_neg fun h => hnil.mp h hpos, ← hstr]
    exact hent
  · refine ⟨{ e with index := e.count, buf := update e.buf e.i 0 },
      by simp [enter, store, hi, hpos], hline, update_self _ _ _, hstr, rfl,
      hg.move (by omega) (Int.le_refl _), ?_⟩
    rw [if_pos (hnil.mpr hpos)]
    rfl

/-! ## Calls -/

/-- Position and line when the call has read its keys. -/
def edited (h : History) (rs : List (Option (BitVec 8))) : ℤ × List (BitVec 8) :=
  (readLine rs).1.foldl (Key.edit h.entries) (h.index, [])

variable {rs : List (Option (BitVec 8))}

theorem getcmd_enter (hg : h.Good) (hend : (readLine rs).2.1 = .enter) :
    ∃ e e', getcmd CMD_BUF_SIZE h rs =
        some (if (edited h rs).2 = [] then -1 else 0, e', (readLine rs).2.2) ∧
      Edited h.newLine (edited h rs) e ∧ Entered e e' := by
  obtain ⟨e, hrun, hed⟩ := @run_edited h.newLine hg (Nat.zero_lt_succ 99) (readLine rs).1
  obtain ⟨e', hent, hen⟩ := enter_entered hed.good hed.i_lt
  refine ⟨e, e', ?_, hed, hen⟩
  have hline : e'.line = (edited h rs).2 := hen.line.trans hed.line
  have hnil : (edited h rs).2 = [] ↔ e'.buf 0 = 0 ∧ e'.i = 0 := by
    rw [← hline, ← List.length_eq_zero_iff, Editor.length_line]
    exact ⟨fun h0 => ⟨by rw [← hen.nul, h0], h0⟩, And.right⟩
  simp [getcmd, hrun, hend, hent, hnil]

theorem getcmd_eof (hg : h.Good) (hend : (readLine rs).2.1 = .eof) :
    ∃ e, getcmd CMD_BUF_SIZE h rs =
        some (if e.buf 0 = 0 ∧ e.i = 0 then -1 else 0, e, (readLine rs).2.2) ∧
      Edited h.newLine (edited h rs) e := by
  obtain ⟨e, hrun, hed⟩ := @run_edited h.newLine hg (Nat.zero_lt_succ 99) (readLine rs).1
  exact ⟨e, by simp [getcmd, hrun, hend], hed⟩

theorem call_good {s : Session} (hg : s.Good) : ∃ s', call s () = some s' ∧ s'.Good := by
  cases hend : (readLine s.input).2.1 with
  | enter =>
    obtain ⟨e, e', hcmd, -, hen⟩ := getcmd_enter hg hend
    exact ⟨_, by simp only [call, hcmd]; rfl, hen.good⟩
  | eof =>
    obtain ⟨e, hcmd, hed⟩ := getcmd_eof hg hend
    exact ⟨_, by simp only [call, hcmd]; rfl, hed.good⟩

theorem init_good (rs : List (Option (BitVec 8))) : (init rs).Good :=
  ⟨Nat.zero_le _, fun _ hl => absurd hl List.not_mem_nil, Int.le_refl _, Int.negSucc_le_zero 0⟩

/-- After any number of calls, for all that can be read: a call returns -1 only at the end of the input
with nothing left on the line, and 0 with the edited line in the buffer for every line that is ended,
exactly if it is not an empty line that is ended. -/
theorem getcmd_ends_iff {rs₀ : List (Option (BitVec 8))} {s : Session}
    (hrun : run call (init rs₀) (List.replicate n ()) = some s) (rs : List (Option (BitVec 8))) :
    ∃ ret e, getcmd CMD_BUF_SIZE s.toHistory rs = some (ret, e, (readLine rs).2.2) ∧
      (((ret = -1 → (readLine rs).2.1 = .eof ∧ (edited s.toHistory rs).2 = []) ∧
        ((readLine rs).2.1 = .enter →
          ret = 0 ∧ e.line = (edited s.toHistory rs).2 ∧ e.buf e.i = 0)) ↔
        ¬ ((readLine rs).2.1 = .enter ∧ (edited s.toHistory rs).2 = [])) := by
  have hg : s.Good := by
    refine run_invariant' (I := fun s : Session => s.Good) (fun s _ s' hs hc => ?_) (init_good rs₀) hrun
    obtain ⟨t, ht, hgood⟩ := call_good hs
    obtain rfl := Option.some.inj (ht.symm.trans hc)
    exact hgood
  cases hend : (readLine rs).2.1 with
  | enter =>
    obtain ⟨e, e', hcmd, hed, hen⟩ := getcmd_enter hg hend
    refine ⟨_, e', hcmd, ?_⟩
    by_cases hnil : (edited s.toHistory rs).2 = []
    · simp [hnil]
    · simp [hnil, hen.line, hed.line, hen.nul]
  | eof =>
    obtain ⟨e, hcmd, hed⟩ := getcmd_eof hg hend
    refine ⟨_, e, hcmd, ?_⟩
    have hnil : e.i = 0 → (edited s.toHistory rs).2 = [] := fun h0 => by
      rw [← hed.line, ← List.length_eq_zero_iff, Editor.length_line, h0]
    simp only [reduceCtorEq, false_and, not_false_eq_true, iff_true, false_implies, and_true, true_and]
    split_ifs with h0
    · exact fun _ => hnil h0.2
    · exact fun h => absurd h (by decide)

/-- The line "a" after the line "ls". -/
theorem getcmd_ends_iff_second : ∃ s : Session,
    run call (init ([0x6c, 0x73, 0x0a].map some)) [()] = some s ∧
    ∃ e, getcmd CMD_BUF_SIZE s.toHistory [some 0x61, some 0x0a] = some (0, e, []) ∧
      e.line = [0x61] := by
  have hsome : (run call (init ([0x6c, 0x73, 0x0a].map some)) [()]).isSome := by decide
  obtain ⟨s, hs⟩ := Option.isSome_iff_exists.mp hsome
  obtain ⟨ret, e, hcmd, hiff⟩ := getcmd_ends_iff (n := 1) hs [some 0x61, some 0x0a]
  have hline : (edited s.toHistory [some 0x61, some 0x0a]).2 = [0x61] := rfl
  obtain ⟨hret, hl, -⟩ := (hiff.mpr (by rw [hline]; decide)).2 rfl
  exact ⟨s, hs, e, hret ▸ hcmd, hl.trans hline⟩

/-- An empty line ends the shell. -/
theorem empty_line_ends : (readLine [some 0x0a]).2.1 = .enter ∧
    (getcmd CMD_BUF_SIZE (init []).toHistory [some 0x0a]).map Prod.fst = some (-1) := by
  decide

/-! ## The history and the reference editor -/

theorem sequence_ne_char (a b c : BitVec 8) : .char c ≠ sequence a b := by
  unfold sequence
  split_ifs <;> exact nofun

theorem readLine_ne_zero (hrs : some 0 ∉ rs) :
    .char 0 ∉ (readLine rs).1 ∧ some 0 ∉ (readLine rs).2.2 := by
  -- each further read is of a tail of the reads, and only a byte itself gives a character
  have hcons : ∀ {k : Key} {p : List Key × End × List (Option (BitVec 8))}, .char 0 ≠ k →
      (.char 0 ∉ p.1 ∧ some 0 ∉ p.2.2) →
      .char 0 ∉ (p.map (k :: ·) id).1 ∧ some 0 ∉ (p.map (k :: ·) id).2.2 :=
    fun hk hp => ⟨List.not_mem_cons_of_ne_of_not_mem hk hp.1, hp.2⟩
  fun_induction readLine rs with
  | case1 => exact ⟨List.not_mem_nil, List.not_mem_nil⟩
  | case2 rs => exact ⟨List.not_mem_nil, fun h => hrs (List.mem_cons_of_mem _ h)⟩
  | case3 c rs => exact ⟨List.not_mem_nil, fun h => hrs (List.mem_cons_of_mem _ h)⟩
  | case4 c rs _ _ ih => exact hcons nofun (ih fun h => hrs (List.mem_cons_of_mem _ h))
  | case5 a b rs _ _ ih =>
    refine hcons (sequence_ne_char a b 0) (ih fun h => hrs ?_)
    exact List.mem_cons_of_mem _ (List.mem_cons_of_mem _ (List.mem_cons_of_mem _ h))
  | case6 a rs _ _ ih =>
    refine hcons nofun (ih fun h => hrs ?_)
    exact List.mem_cons_of_mem _ (List.mem_cons_of_mem _ (List.mem_cons_of_mem _ h))
  | case7 rs _ _ ih =>
    exact hcons nofun (ih fun h => hrs (List.mem_cons_of_mem _ (List.mem_cons_of_mem _ h)))
  | case8 => exact ⟨by simp, List.not_mem_nil⟩
  | case9 => exact ⟨by simp, List.not_mem_nil⟩
  | case10 c rs _ _ _ ih =>
    refine hcons (fun h => hrs ?_) (ih fun h => hrs (List.mem_cons_of_mem _ h))
    rw [← Key.char.inj h]
    exact List.mem_cons_self

theorem Key.edit_ne_zero {L : List (List (BitVec 8))} (hL : ∀ l ∈ L, 0 ∉ l)
    {p : ℤ × List (BitVec 8)} (hp : 0 ∉ p.2) {k : Key} (hk : .char 0 ≠ k) : 0 ∉ (k.edit L p).2 := by
  have hentry : ∀ j : ℕ, 0 ∉ L.getD j [] := fun j => by
    rw [List.getD_eq_getElem?_getD]
    cases hj : L[j]? with
    | none => exact List.not_mem_nil
    | some l => exact hL l (List.mem_of_getElem? hj)
  cases k with
  | char c =>
    have hc : 0 ≠ c := fun h => hk (by rw [h])
    simp only [Key.edit]
    split_ifs
    · simpa using ⟨hp, hc⟩
    · exact hp
  | backspace => exact fun h => hp (List.dropLast_subset _ h)
  | up =>
    simp only [Key.edit]
    split_ifs
    · exact hentry _
    · exact hp
  | down =>
    simp only [Key.edit]
    split_ifs
    · exact hentry _
    · exact hp
  | escape => exact hp

theorem foldl_edit_ne_zero {L : List (List (BitVec 8))} (hL : ∀ l ∈ L, 0 ∉ l) {ks : List Key}
    (hks : .char 0 ∉ ks) {p : ℤ × List (BitVec 8)} (hp : 0 ∉ p.2) :
    0 ∉ (ks.foldl (Key.edit L) p).2 := by
  induction ks generalizing p with
  | nil => exact hp
  | cons k ks ih =>
    rw [List.mem_cons, not_or] at hks
    exact ih hks.2 (Key.edit_ne_zero hL hp hks.1)

theorem edited_takeWhile (hrs : some 0 ∉ rs) :
    (edited h rs).2.takeWhile (· ≠ 0) = (edited h rs).2 := by
  have hne : 0 ∉ (edited h rs).2 :=
    foldl_edit_ne_zero History.zero_notMem_entries (readLine_ne_zero hrs).1 List.not_mem_nil
  exact List.takeWhile_eq_self_iff.mpr fun c hc => by simpa using fun h0 : c = 0 => hne (h0 ▸ hc)

theorem recent_append (ls : List (List (BitVec 8))) (l : List (BitVec 8)) :
    recent (ls ++ [l]) =
      if l = [] then recent ls else (recent ls).rtake (HISTORY_SIZE - 1) ++ [l] := by
  unfold recent
  split_ifs with hl
  · simp [hl]
  · have hSIZE : HISTORY_SIZE = HISTORY_SIZE - 1 + 1 := rfl
    rw [List.filter_append, List.filter_cons_of_pos (by simpa using hl), List.filter_nil, hSIZE,
      List.rtake_concat_succ, Nat.add_sub_cancel]
    refine congrArg (· ++ [l]) ?_
    simp [List.rtake_eq_reverse_take_reverse, List.take_take]

/-- The entries are the last lines returned that are not empty, and there is no NUL to be read. -/
structure Session.Consistent (s : Session) : Prop where
  good : s.Good
  input : some 0 ∉ s.input
  entries : s.entries = recent s.returned

/-- A call, with what it returns for a line that is ended. -/
structure Called (s s' : Session) : Prop where
  input : s'.input = (readLine s.input).2.2
  enter : (readLine s.input).2.1 = .enter →
    s'.returned = s.returned ++ [(edited s.toHistory s.input).2] ∧ s'.index = s'.count
  eof : (readLine s.input).2.1 = .eof →
    s'.returned = s.returned ∧ s'.count = s.count ∧ s'.index = (edited s.toHistory s.input).1

theorem Session.Consistent.call {s : Session} (hs : s.Consistent) :
    ∃ s', call s () = some s' ∧ s'.Consistent ∧ Called s s' := by
  have hrest := (readLine_ne_zero hs.input).2
  cases hend : (readLine s.input).2.1 with
  | enter =>
    obtain ⟨e, e', hcmd, hed, hen⟩ := getcmd_enter hs.good hend
    have hline := edited_takeWhile (h := s.toHistory) hs.input
    have hstr : str CMD_BUF_SIZE 0 e'.buf = (edited s.toHistory s.input).2 := by
      rw [hen.str, hed.line, hline]
    refine ⟨{ e'.toHistory with
        input := (readLine s.input).2.2
        returned := s.returned ++ [(edited s.toHistory s.input).2] },
      by simp only [Getcmd.call, hcmd, hend, hstr, bind, Option.bind_some],
      ⟨hen.good, hrest, ?_⟩, rfl, fun _ => ⟨rfl, hen.index⟩, fun h => ?_⟩
    · rw [recent_append, ← hs.entries]
      have hent := hen.entries
      rw [hed.line, hline, hed.entries] at hent
      exact hent
    · rw [hend] at h
      cases h
  | eof =>
    obtain ⟨e, hcmd, hed⟩ := getcmd_eof hs.good hend
    refine ⟨{ e.toHistory with input := (readLine s.input).2.2, returned := s.returned },
      by simp only [Getcmd.call, hcmd, hend, bind, Option.bind_some],
      ⟨hed.good, hrest, hed.entries.trans hs.entries⟩, rfl, fun h => ?_, fun _ => ?_⟩
    · rw [hend] at h
      cases h
    · exact ⟨rfl, hed.count, hed.index⟩

/-- Without entries only `Down` tells the position before the first from the first. -/
theorem Key.edit_start {k : Key} (hk : k ≠ .down) (l : List (BitVec 8)) :
    k.edit [] (-1, l) = (-1, (k.edit [] (0, l)).2) := by
  cases k with
  | down => exact absurd rfl hk
  | _ => rfl

theorem Key.edit_zero (k : Key) (l : List (BitVec 8)) :
    k.edit [] (0, l) = (0, (k.edit [] (0, l)).2) := by
  cases k <;> rfl

theorem foldl_edit_zero (ks : List Key) (l : List (BitVec 8)) :
    (ks.foldl (Key.edit []) (0, l)).1 = 0 := by
  induction ks generalizing l with
  | nil => rfl
  | cons k ks ih =>
    rw [List.foldl_cons, Key.edit_zero]
    exact ih _

/-- The same line from both, if `Down` is not pressed on a line. -/
theorem foldl_edit_start {ks : List Key} (hg : e.Good) (hi : e.i < CMD_BUF_SIZE)
    (hcount : e.count = 0) (hindex : e.index = -1)
    (hm : Meets (edit CMD_BUF_SIZE) (fun e k => e.index = -1 → k = .down → e.i = 0) e ks) :
    (ks.foldl (Key.edit []) (-1, e.line)).2 = (ks.foldl (Key.edit []) (0, e.line)).2 ∧
      ((ks.foldl (Key.edit []) (-1, e.line)).1 = -1 ∨
        (ks.foldl (Key.edit []) (-1, e.line)).1 = 0) := by
  induction ks generalizing e with
  | nil => exact ⟨rfl, .inl rfl⟩
  | cons k ks ih =>
    obtain ⟨e', hedit, hed⟩ := edit_edited hg hi k
    have hent : e.entries = [] := List.eq_nil_of_length_eq_zero (e.length_entries.trans hcount)
    rw [List.foldl_cons, List.foldl_cons]
    by_cases hk : k = .down
    · have hnil : e.line = [] := List.eq_nil_of_length_eq_zero
        (e.length_line.trans (hm.1 hindex hk))
      subst hk
      rw [hnil]
      exact ⟨rfl, .inr (foldl_edit_zero ks _)⟩
    · rw [hent, hindex, Key.edit_start hk] at hed
      rw [Key.edit_start hk, Key.edit_zero, ← hed.line]
      exact ih hed.good hed.i_lt (hed.count.trans hcount) hed.index (hm.2 e' hedit)

/-- The session and the reference editor have read and returned the same, and are at the same position
of the history or both before its first entry. -/
structure Follows (s : Session) (r : Reference) : Prop where
  consistent : s.Consistent
  input : s.input = r.input
  returned : s.returned = r.returned
  pos : s.index = r.pos ∨ s.index = -1 ∧ s.count = 0 ∧ r.pos = 0

/-- The line that is edited is the reference editor's. -/
theorem Follows.edited {s : Session} {r : Reference} (h : Follows s r) (hd : NoFirstDown s ()) :
    ((readLine r.input).1.foldl (Key.edit (recent r.returned)) (r.pos, [])).2 =
        (edited s.toHistory s.input).2 ∧
      ((edited s.toHistory s.input).1 =
          ((readLine r.input).1.foldl (Key.edit (recent r.returned)) (r.pos, [])).1 ∨
        (edited s.toHistory s.input).1 = -1 ∧ s.count = 0 ∧
          ((readLine r.input).1.foldl (Key.edit (recent r.returned)) (r.pos, [])).1 = 0) := by
  have hent := h.consistent.entries
  rw [← h.input, ← h.returned, ← hent, Getcmd.edited]
  rcases h.pos with hpos | ⟨hindex, hcount, hpos⟩
  · rw [hpos]
    exact ⟨rfl, .inl rfl⟩
  · have hnil : s.entries = [] := List.eq_nil_of_length_eq_zero (s.length_entries.trans hcount)
    obtain ⟨hline, hfirst⟩ := @foldl_edit_start s.newLine _ h.consistent.good (Nat.zero_lt_succ 99)
      hcount hindex hd
    have hzero := foldl_edit_zero (readLine s.input).1 []
    rw [hnil, hindex, hpos]
    refine ⟨hline.symm, ?_⟩
    rcases hfirst with hfirst | hfirst
    · exact .inr ⟨hfirst, hcount, hzero⟩
    · exact .inl (hfirst.trans hzero.symm)

theorem Follows.call {s s' : Session} {r : Reference} (h : Follows s r) (hd : NoFirstDown s ())
    (hs : call s () = some s') : Follows s' r.call := by
  obtain ⟨t, ht, hcons, hcall⟩ := h.consistent.call
  obtain rfl := Option.some.inj (ht.symm.trans hs)
  obtain ⟨hline, hpos⟩ := h.edited hd
  have hinput : t.input = r.call.input := by
    rw [hcall.input, h.input, Reference.call]
    split <;> rfl
  cases hend : (readLine s.input).2.1 with
  | enter =>
    obtain ⟨hret, hindex⟩ := hcall.enter hend
    have hend' : (readLine r.input).2.1 = .enter := by rw [← h.input, hend]
    have hret' : t.returned = r.call.returned := by
      simp only [Reference.call, hend', hline, hret, h.returned]
    refine ⟨hcons, hinput, hret', .inl ?_⟩
    have hlen := congrArg List.length hcons.entries
    rw [History.length_entries, hret'] at hlen
    rw [hindex, hlen]
    simp only [Reference.call, hend']
  | eof =>
    obtain ⟨hret, hcount, hindex⟩ := hcall.eof hend
    have hend' : (readLine r.input).2.1 = .eof := by rw [← h.input, hend]
    refine ⟨hcons, hinput, ?_, ?_⟩
    · simp only [Reference.call, hend', hret, h.returned]
    · rw [hindex, hcount]
      simp only [Reference.call, hend']
      exact hpos

theorem init_consistent (hrs : some 0 ∉ rs) : (init rs).Consistent := ⟨init_good rs, hrs, rfl⟩

theorem run_calls {s : Session} (hs : s.Consistent) (n : ℕ) :
    ∃ s', run call s (List.replicate n ()) = some s' ∧ s'.Consistent := by
  induction n generalizing s with
  | zero => exact ⟨s, rfl, hs⟩
  | succ n ih =>
    obtain ⟨t, ht, htc, -⟩ := hs.call
    obtain ⟨s', hs', hcons⟩ := ih htc
    exact ⟨s', run_cons_eq_some.mpr ⟨t, ht, hs'⟩, hcons⟩

theorem Follows.run {s s' : Session} {r : Reference} {n : ℕ} (h : Follows s r)
    (hm : Meets Getcmd.call NoFirstDown s (List.replicate n ()))
    (hs : Lib.run Getcmd.call s (List.replicate n ()) = some s') :
    Follows s' (Reference.call^[n] r) := by
  induction n generalizing s r with
  | zero =>
    cases hs
    exact h
  | succ n ih =>
    obtain ⟨t, ht, hs⟩ := run_cons_eq_some.mp hs
    exact ih (h.call hm.1 ht) (hm.2 t ht) hs

/-- For every stream without NUL and any number of calls: no call faults, so that each store is inside
its array and each arrow reads an entry; the history holds the last lines that are not empty; and if
`Down` is not pressed on a line before the first line has been entered, the lines are those of the
reference editor. -/
theorem getcmd_history (hrs : some 0 ∉ rs) (n : ℕ) :
    ∃ s, run call (init rs) (List.replicate n ()) = some s ∧ s.entries = recent s.returned ∧
      (Meets call NoFirstDown (init rs) (List.replicate n ()) →
        s.returned = (Reference.call^[n] ⟨rs, [], 0⟩).returned) := by
  obtain ⟨s, hs, hcons⟩ := run_calls (init_consistent hrs) n
  refine ⟨s, hs, hcons.entries, fun hm => ?_⟩
  have hstart : Follows (init rs) ⟨rs, [], 0⟩ :=
    ⟨init_consistent hrs, rfl, rfl, .inr ⟨rfl, rfl, rfl⟩⟩
  exact (hstart.run hm hs).returned

/-- "ls", and then the entry above the new line. -/
theorem getcmd_history_up :
    ∃ s, run call (init ([0x6c, 0x73, 0x0a, 0x1b, 0x5b, 0x41, 0x0a].map some)) [(), ()] = some s ∧
      s.returned = [[0x6c, 0x73], [0x6c, 0x73]] := by
  obtain ⟨s, hs, -, h⟩ :=
    @getcmd_history ([0x6c, 0x73, 0x0a, 0x1b, 0x5b, 0x41, 0x0a].map some) (by decide) 2
  exact ⟨s, hs, (h (by decide)).trans (by decide)⟩

/-- `Down` on the first line clears it. -/
theorem first_down_clears :
    (run call (init ([0x6c, 0x73, 0x1b, 0x5b, 0x42, 0x0a].map some)) [()]).map (·.returned) =
      some [[]] ∧
    (Reference.call ⟨[0x6c, 0x73, 0x1b, 0x5b, 0x42, 0x0a].map some, [], 0⟩).returned =
      [[0x6c, 0x73]] := by
  decide

end DuckoUnix.Sh.Getcmd
