import DuckoUnix.Grep.Match
import DuckoUnix.Lib.Run

/-!
# grep on a stream

The function `grep` of `grep.c`, with `strchr` of `ulib.c`. The state is taken where `grep` calls
`read`: the first `m` bytes of `buf`, and what has been written. A step is one call of `read` that
returns some bytes, with the loop over the lines in the buffer.

If the buffer has no newline, `grep` forgets what is in it, also when more of the line is still to
come. So a line is looked at from the last such point on.
-/

namespace DuckoUnix.Grep

open Lib

def nl : BitVec 8 := chr '\n'

/-! ## The code -/

/-- `strchr`: the text up to the place found and the text behind it. -/
def strchr (c : BitVec 8) : Str → Option (Str × Str)
  | [] => none
  | x :: s =>
    if x = 0 then none
    else if x = c then some ([], s)
    else (strchr c s).map fun r => (x :: r.1, r.2)

theorem strchr_length {c : BitVec 8} {s : Str} {r : Str × Str} (h : strchr c s = some r) :
    r.2.length < s.length := by
  induction s generalizing r with
  | nil => cases h
  | cons x s ih =>
    unfold strchr at h
    split at h
    · cases h
    split at h
    · cases h
      exact Nat.lt_succ_self _
    · obtain ⟨r', hr', rfl⟩ := Option.map_eq_some_iff.mp h
      exact Nat.lt_succ_of_lt (ih (r := r') hr')

/-- The loop over the lines from `p` on: what it writes, and `p` behind the last newline. -/
def scan (re : Str) (p : Str) : Str × Str :=
  match h : strchr nl p with
  | none => ([], p)
  | some r =>
    have := strchr_length h
    let written := if matchRe re r.1 then r.1 ++ [nl] else []
    let s := scan re r.2
    (written ++ s.1, s.2)
termination_by p.length

/-- Where `grep` calls `read`. -/
structure State where
  /-- the first `m` bytes of `buf` -/
  carry : Str
  /-- what has been written -/
  out : Str

/-- The number of bytes that `grep` asks for: `sizeof(buf)-m-1`. -/
def request (s : State) : ℕ := 1024 - s.carry.length - 1

/-- `read` returns the bytes `piece`. -/
def step (re : Str) (s : State) (piece : Str) : Option State :=
  if piece = [] ∨ request s < piece.length then none
  else
    let buf := s.carry ++ piece
    let r := scan re buf
    -- `if(p == buf) m = 0;`
    some ⟨if r.2.length = buf.length then [] else r.2, s.out ++ r.1⟩

/-- Where `grep` begins. -/
def start : State := ⟨[], []⟩

/-! ## Lines -/

/-- A character in front of lines and an open line. -/
def push (c : BitVec 8) (r : List Str × Str) : List Str × Str :=
  if c = nl then ([] :: r.1, r.2)
  else match r.1 with
    | [] => ([], c :: r.2)
    | l :: ls => ((c :: l) :: ls, r.2)

/-- The lines of a text that are ended by a newline, and what is behind the last one. -/
def cut : Str → List Str × Str
  | [] => ([], [])
  | c :: s => push c (cut s)

def printed (re : Str) (ls : List Str) : Str := (ls.filter (matchRe re)).flatMap (· ++ [nl])

section Lines

variable {s line rest : Str} {re : Str} {c : BitVec 8} {ls : List Str}

@[simp] theorem push_nl (r : List Str × Str) : push nl r = ([] :: r.1, r.2) := if_pos rfl

@[simp] theorem push_nil (hc : c ≠ nl) : push c ([], rest) = ([], c :: rest) := if_neg hc

@[simp] theorem push_cons (hc : c ≠ nl) : push c (line :: ls, rest) = ((c :: line) :: ls, rest) :=
  if_neg hc

theorem cut_open (h : nl ∉ s) : cut s = ([], s) := by
  induction s with
  | nil => rfl
  | cons c s ih =>
    rw [List.mem_cons, not_or] at h
    rw [cut, ih h.2, push_nil (Ne.symm h.1)]

theorem cut_line (h : nl ∉ line) :
    cut (line ++ nl :: rest) = (line :: (cut rest).1, (cut rest).2) := by
  induction line with
  | nil => rw [List.nil_append, cut, push_nl]
  | cons c line ih =>
    rw [List.mem_cons, not_or] at h
    rw [List.cons_append, cut, ih h.2, push_cons (Ne.symm h.1)]

theorem cut_append (s t : Str) :
    cut (s ++ t) = ((cut s).1 ++ (cut ((cut s).2 ++ t)).1, (cut ((cut s).2 ++ t)).2) := by
  induction s with
  | nil => rfl
  | cons c s ih =>
    rw [List.cons_append, cut, ih, cut]
    rcases cut s with ⟨ls, rest⟩
    by_cases hc : c = nl
    · simp [hc]
    · cases ls with
      | nil => simp [hc, cut]
      | cons l ls => simp [hc]

theorem flatMap_cut (s : Str) : (cut s).1.flatMap (· ++ [nl]) ++ (cut s).2 = s := by
  induction s with
  | nil => rfl
  | cons c s ih =>
    rw [cut]
    generalize cut s = r at ih ⊢
    obtain ⟨ls, rest⟩ := r
    by_cases hc : c = nl
    · simpa [hc] using ih
    · cases ls <;> simpa [hc] using ih

theorem cut_rest_length (s : Str) : (cut s).2.length ≤ s.length := by
  have h := congrArg List.length (flatMap_cut s)
  rw [List.length_append] at h
  omega

theorem nl_notMem_cut (s : Str) : (∀ l ∈ (cut s).1, nl ∉ l) ∧ nl ∉ (cut s).2 := by
  induction s with
  | nil => exact ⟨fun _ hl => absurd hl List.not_mem_nil, List.not_mem_nil⟩
  | cons c s ih =>
    rw [cut]
    generalize cut s = r at ih ⊢
    obtain ⟨ls, rest⟩ := r
    by_cases hc : c = nl
    · simpa [hc] using ih
    · cases ls <;> simpa [hc, Ne.symm hc] using ih

@[simp] theorem printed_nil : printed re [] = [] := rfl

theorem printed_cons :
    printed re (line :: ls) = (if matchRe re line then line ++ [nl] else []) ++ printed re ls := by
  unfold printed
  rw [List.filter_cons]
  split <;> simp

theorem printed_append {ms : List Str} :
    printed re (ls ++ ms) = printed re ls ++ printed re ms := by
  simp [printed]

end Lines

/-! ## One call of read -/

section Step

variable {re p piece : Str} {s s' : State}

/-- Without NULs, `strchr` finds the first newline. -/
theorem strchr_eq (h0 : 0 ∉ p) : (nl ∉ p ∧ strchr nl p = none) ∨
    ∃ line rest, nl ∉ line ∧ p = line ++ nl :: rest ∧ strchr nl p = some (line, rest) := by
  induction p with
  | nil => exact .inl ⟨List.not_mem_nil, rfl⟩
  | cons x p ih =>
    rw [List.mem_cons, not_or] at h0
    have hx : strchr nl (x :: p) = if x = nl then some ([], p)
        else (strchr nl p).map fun r => (x :: r.1, r.2) := if_neg (Ne.symm h0.1)
    rw [hx]
    by_cases hnl : x = nl
    · right
      exact ⟨[], p, List.not_mem_nil, by rw [hnl]; rfl, if_pos hnl⟩
    rw [if_neg hnl]
    rcases ih h0.2 with ⟨hp, hnone⟩ | ⟨line, rest, hline, rfl, hsome⟩
    · left
      rw [hnone]
      exact ⟨List.not_mem_cons_of_ne_of_not_mem (Ne.symm hnl) hp, rfl⟩
    · right
      rw [hsome]
      exact ⟨x :: line, rest, List.not_mem_cons_of_ne_of_not_mem (Ne.symm hnl) hline, rfl, rfl⟩

/-- The loop over the lines writes those that match and ends at the open line. -/
theorem scan_eq (h0 : 0 ∉ p) : scan re p = (printed re (cut p).1, (cut p).2) := by
  induction hlen : p.length using Nat.strong_induction_on generalizing p with
  | _ k ih =>
    subst hlen
    rw [scan]
    rcases strchr_eq h0 with ⟨hp, hnone⟩ | ⟨line, rest, hline, hp, hsome⟩
    · split
      · rw [cut_open hp, printed_nil]
      · rename_i h
        rw [hnone] at h
        cases h
    · split
      · rename_i h
        rw [hsome] at h
        cases h
      · rename_i r h
        rw [hsome] at h
        cases h
        have h0' : 0 ∉ rest := fun hm => h0 (hp ▸ List.mem_append_right line (List.mem_cons_of_mem nl hm))
        have hlt : rest.length < p.length := by rw [hp]; simp; omega
        dsimp only
        rw [ih _ hlt h0' rfl, hp, cut_line hline, printed_cons]

theorem step_eq_some : step re s piece = some s' ↔ piece ≠ [] ∧ piece.length ≤ request s ∧
    s' = ⟨if (scan re (s.carry ++ piece)).2.length = (s.carry ++ piece).length then []
      else (scan re (s.carry ++ piece)).2, s.out ++ (scan re (s.carry ++ piece)).1⟩ := by
  unfold step
  split
  · rename_i h
    refine iff_of_false nofun fun ⟨hne, hle, _⟩ => ?_
    rcases h with h | h
    · exact hne h
    · omega
  · rename_i h
    rw [not_or, not_lt] at h
    rw [Option.some_inj]
    exact ⟨fun e => ⟨h.1, h.2, e.symm⟩, fun e => e.2.2.symm⟩

/-- A piece without a newline is forgotten, and so is what was there before it. -/
theorem step_open (h0 : 0 ∉ s.carry ++ piece) (hnl : nl ∉ s.carry ++ piece)
    (h : step re s piece = some s') : s' = ⟨[], s.out⟩ := by
  obtain ⟨-, -, rfl⟩ := step_eq_some.mp h
  rw [scan_eq h0, cut_open hnl, if_pos rfl, printed_nil, List.append_nil]

theorem exists_line (h0 : 0 ∉ p) (hnl : nl ∈ p) :
    ∃ line rest, nl ∉ line ∧ p = line ++ nl :: rest := by
  rcases strchr_eq h0 with ⟨hno, -⟩ | ⟨line, rest, hline, hp, -⟩
  · exact absurd hnl hno
  · exact ⟨line, rest, hline, hp⟩

/-- With a newline in it, the lines are looked at and the open line stays. -/
theorem step_line {line rest : Str} (h0 : 0 ∉ s.carry ++ (line ++ nl :: rest))
    (hcarry : nl ∉ s.carry) (hline : nl ∉ line) (h : step re s (line ++ nl :: rest) = some s') :
    s' = ⟨(cut rest).2, s.out ++ printed re ((s.carry ++ line) :: (cut rest).1)⟩ := by
  obtain ⟨-, -, rfl⟩ := step_eq_some.mp h
  have hno : nl ∉ s.carry ++ line := by simp [hcarry, hline]
  have hlen : (cut rest).2.length ≠ (s.carry ++ line ++ nl :: rest).length := by
    have hle := cut_rest_length rest
    simp only [List.length_append, List.length_cons]
    omega
  rw [scan_eq h0, ← List.append_assoc, cut_line hno, if_neg hlen]

theorem exists_step (re : Str) (hne : piece ≠ []) (hle : piece.length ≤ request s) :
    ∃ s', step re s piece = some s' :=
  ⟨_, step_eq_some.mpr ⟨hne, hle, rfl⟩⟩

end Step

/-! ## Whole streams -/

section Streams

variable {re stream : Str} {pieces : List Str} {s : State}

/-- There are no NULs in the stream, and its lines are shorter than 1023 bytes. -/
structure Fits (stream : Str) : Prop where
  nul : 0 ∉ stream
  lines : ∀ l ∈ (cut stream).1, l.length < 1023
  rest : (cut stream).2.length < 1023

/-- The state once the text `t` has been read: of each line only an end has been looked at, and only
an end of the open line is in the buffer. -/
structure Seen (re t : Str) (s : State) : Prop where
  carry : s.carry <:+ (cut t).2
  out : ∃ seen, List.Forall₂ (· <:+ ·) seen (cut t).1 ∧ s.out = printed re seen

theorem notMem_right {x : BitVec 8} {t u : Str} (h : x ∉ t ++ u) : x ∉ u :=
  fun hx => h (List.mem_append_right t hx)

theorem notMem_buffer {t piece : Str} (hcarry : s.carry <:+ (cut t).2) (h0 : 0 ∉ t ++ piece) :
    0 ∉ s.carry ++ piece := by
  intro hm
  rcases List.mem_append.mp hm with hm | hm
  · have hrest : 0 ∈ (cut t).1.flatMap (· ++ [nl]) ++ (cut t).2 :=
      List.mem_append_right _ (hcarry.subset hm)
    rw [flatMap_cut] at hrest
    exact h0 (List.mem_append_left _ hrest)
  · exact notMem_right h0 hm

theorem Seen.step {t piece : Str} {s' : State} (h : Seen re t s) (h0 : 0 ∉ t ++ piece)
    (hs : step re s piece = some s') : Seen re (t ++ piece) s' := by
  have hbuf := notMem_buffer h.carry h0
  have hrest := (nl_notMem_cut t).2
  have hcarry : nl ∉ s.carry := fun hm => hrest (h.carry.subset hm)
  obtain ⟨seen, hseen, hout⟩ := h.out
  by_cases hnl : nl ∈ piece
  · obtain ⟨line, rest, hline, rfl⟩ := exists_line (notMem_right h0) hnl
    have hno : nl ∉ (cut t).2 ++ line := by simp [hrest, hline]
    obtain ⟨before, hbefore⟩ := h.carry
    rw [step_line hbuf hcarry hline hs]
    constructor
    · rw [cut_append, ← List.append_assoc, cut_line hno]
    · refine ⟨seen ++ (s.carry ++ line) :: (cut rest).1, ?_, ?_⟩
      · rw [cut_append, ← List.append_assoc, cut_line hno]
        refine List.rel_append hseen (.cons ⟨before, ?_⟩ (List.forall₂_same.mpr fun _ _ => List.suffix_rfl))
        rw [← List.append_assoc, hbefore]
      · rw [printed_append, hout]
  · have hno : nl ∉ (cut t).2 ++ piece := by simp [hrest, hnl]
    rw [step_open hbuf (by simp [hcarry, hnl]) hs]
    constructor
    · exact List.nil_suffix
    · refine ⟨seen, ?_, hout⟩
      rw [cut_append, cut_open hno, List.append_nil]
      exact hseen

theorem seen_run (h0 : 0 ∉ pieces.flatten) (h : run (step re) start pieces = some s) :
    Seen re pieces.flatten s := by
  induction pieces using List.reverseRecOn generalizing s with
  | nil =>
    cases h
    exact ⟨List.nil_suffix, [], .nil, rfl⟩
  | append_singleton pieces piece ih =>
    obtain ⟨t, ht, hs⟩ := run_append_eq_some.mp h
    rw [run_singleton] at hs
    rw [List.flatten_concat] at h0 ⊢
    exact (ih (fun hm => h0 (List.mem_append_left _ hm)) ht).step h0 hs

/-- Neither the line nor an end of it matches; an empty line has no end to be looked at alone. -/
def Unmatched (re l : Str) : Prop :=
  ∀ u v, l = u ++ v → u ≠ [] → matchRe re l = false ∧ matchRe re v = false

theorem printed_seen {seen ls : List Str} (h : List.Forall₂ (· <:+ ·) seen ls)
    (hls : ∀ l ∈ ls, Unmatched re l) : printed re seen = printed re ls := by
  induction h with
  | nil => rfl
  | @cons v l seen ls hv _ ih =>
    rw [List.forall_mem_cons] at hls
    rw [printed_cons, printed_cons, ih hls.2]
    obtain ⟨u, rfl⟩ := hv
    by_cases hu : u = []
    · rw [hu, List.nil_append]
    · obtain ⟨hl, hv⟩ := hls.1 u v rfl hu
      rw [hl, hv]
      rfl

/-! ### Reads that end at newlines -/

/-- The state once the text `t` has been read and nothing of it was forgotten. -/
structure Exact (re t : Str) (s : State) : Prop where
  carry : s.carry = (cut t).2
  out : s.out = printed re (cut t).1

theorem Exact.step {t piece : Str} {s' : State} (h : Exact re t s) (h0 : 0 ∉ t ++ piece)
    (hnl : nl ∈ piece) (hs : step re s piece = some s') : Exact re (t ++ piece) s' := by
  have hrest := (nl_notMem_cut t).2
  obtain ⟨line, rest, hline, rfl⟩ := exists_line (notMem_right h0) hnl
  have hno : nl ∉ (cut t).2 ++ line := by simp [hrest, hline]
  rw [step_line (notMem_buffer (h.carry ▸ List.suffix_rfl) h0) (h.carry ▸ hrest) hline hs]
  constructor
  · rw [cut_append, ← List.append_assoc, cut_line hno]
  · rw [cut_append, ← List.append_assoc, cut_line hno, printed_append, h.out, h.carry]

theorem exact_run (h0 : 0 ∉ pieces.flatten) (hnl : ∀ piece ∈ pieces, nl ∈ piece)
    (h : run (step re) start pieces = some s) : Exact re pieces.flatten s := by
  induction pieces using List.reverseRecOn generalizing s with
  | nil =>
    cases h
    exact ⟨rfl, rfl⟩
  | append_singleton pieces piece ih =>
    obtain ⟨t, ht, hs⟩ := run_append_eq_some.mp h
    rw [run_singleton] at hs
    rw [List.flatten_concat] at h0 ⊢
    rw [List.forall_mem_append] at hnl
    exact (ih (fun hm => h0 (List.mem_append_left _ hm)) hnl.1 ht).step h0
      (hnl.2 piece (List.mem_singleton_self _)) hs

/-- The last piece may lack a newline: what `grep` forgets then is not a whole line. -/
theorem Exact.out_step {t piece : Str} {s' : State} (h : Exact re t s) (h0 : 0 ∉ t ++ piece)
    (hs : Grep.step re s piece = some s') : s'.out = printed re (cut (t ++ piece)).1 := by
  by_cases hnl : nl ∈ piece
  · exact (h.step h0 hnl hs).out
  · have hno : nl ∉ (cut t).2 ++ piece := by simp [(nl_notMem_cut t).2, hnl]
    have hbuf : nl ∉ s.carry ++ piece := by rw [h.carry]; exact hno
    rw [step_open (notMem_buffer (h.carry ▸ List.suffix_rfl) h0) hbuf hs, cut_append, cut_open hno,
      List.append_nil]
    exact h.out

theorem out_of_newlines (h0 : 0 ∉ pieces.flatten) (hnl : ∀ piece ∈ pieces.dropLast, nl ∈ piece)
    (h : run (step re) start pieces = some s) : s.out = printed re (cut pieces.flatten).1 := by
  rcases List.eq_nil_or_concat pieces with rfl | ⟨before, piece, rfl⟩
  · cases h
    rfl
  · rw [List.concat_eq_append] at *
    rw [List.dropLast_concat] at hnl
    obtain ⟨t, ht, hs⟩ := run_append_eq_some.mp h
    rw [run_singleton] at hs
    rw [List.flatten_concat] at h0 ⊢
    exact (exact_run (fun hm => h0 (List.mem_append_left _ hm)) hnl ht).out_step h0 hs

/-! ### A line read in two pieces -/

theorem zero_ne_nl : (0 : BitVec 8) ≠ nl := by decide

theorem run_lines {ls : List Str} {out : Str} (h0 : ∀ l ∈ ls, 0 ∉ l) (hnl : ∀ l ∈ ls, nl ∉ l)
    (hlen : ∀ l ∈ ls, l.length < 1023) :
    run (step re) ⟨[], out⟩ (ls.map (· ++ [nl])) = some ⟨[], out ++ printed re ls⟩ := by
  induction ls generalizing out with
  | nil => rw [printed_nil, List.append_nil]; rfl
  | cons l ls ih =>
    rw [List.forall_mem_cons] at h0 hnl hlen
    have hle : (l ++ [nl]).length ≤ request ⟨[], out⟩ := by
      rw [List.length_append, List.length_singleton]
      exact hlen.1
    obtain ⟨s', hs'⟩ := exists_step re (by simp) hle
    have hbuf : 0 ∉ l ++ [nl] := fun hm =>
      (List.mem_append.mp hm).elim h0.1 fun h => zero_ne_nl (List.mem_singleton.mp h)
    have heq := step_line (s := ⟨[], out⟩) hbuf List.not_mem_nil hnl.1 hs'
    rw [List.map_cons, run_cons, hs', heq, Option.bind_some]
    show run (step re) ⟨[], out ++ printed re [l]⟩ _ = _
    rw [ih h0.2 hnl.2 hlen.2, List.append_assoc, ← printed_append, List.singleton_append]

theorem step_forgets {u out : Str} (hne : u ≠ []) (h0 : 0 ∉ u) (hnl : nl ∉ u)
    (hlen : u.length < 1023) : step re ⟨[], out⟩ u = some ⟨[], out⟩ := by
  have hle : u.length ≤ request ⟨[], out⟩ := Nat.le_of_lt hlen
  obtain ⟨s', hs'⟩ := exists_step re hne hle
  rw [hs', step_open (s := ⟨[], out⟩) h0 hnl hs']

/-- The open line at the end of the stream as a piece. -/
def lastPiece (r : Str) : List Str := if r = [] then [] else [r]

theorem lastPiece_flatten (r : Str) : (lastPiece r).flatten = r := by
  unfold lastPiece
  split
  · rename_i h
    rw [h]
    rfl
  · simp

theorem run_lastPiece {r out : Str} (h0 : 0 ∉ r) (hnl : nl ∉ r) (hlen : r.length < 1023) :
    run (step re) ⟨[], out⟩ (lastPiece r) = some ⟨[], out⟩ := by
  unfold lastPiece
  split
  · rfl
  · rename_i h
    rw [run_singleton, step_forgets h h0 hnl hlen]

/-- Every line is read by itself, but one of them in two pieces. -/
def halved (before : List Str) (u v : Str) (behind : List Str) (r : Str) : List Str :=
  before.map (· ++ [nl]) ++ u :: (v ++ [nl]) :: (behind.map (· ++ [nl]) ++ lastPiece r)

theorem halved_flatten (before : List Str) (u v : Str) (behind : List Str) (r : Str) :
    (halved before u v behind r).flatten =
      (before ++ (u ++ v) :: behind).flatMap (· ++ [nl]) ++ r := by
  simp [halved, lastPiece_flatten, List.flatMap]

theorem Fits.line (h : Fits stream) {l : Str} (hl : l ∈ (cut stream).1) :
    0 ∉ l ∧ nl ∉ l ∧ l.length < 1023 := by
  refine ⟨fun hm => h.nul ?_, (nl_notMem_cut stream).1 l hl, h.lines l hl⟩
  rw [← flatMap_cut stream]
  exact List.mem_append_left _ (List.mem_flatMap.mpr ⟨l, hl, List.mem_append_left _ hm⟩)

theorem Fits.rest_line (h : Fits stream) :
    0 ∉ (cut stream).2 ∧ nl ∉ (cut stream).2 ∧ (cut stream).2.length < 1023 := by
  refine ⟨fun hm => h.nul ?_, (nl_notMem_cut stream).2, h.rest⟩
  rw [← flatMap_cut stream]
  exact List.mem_append_right _ hm

/-- The open line at any point of the stream is a part of a line. -/
theorem Fits.open_length {t rest : Str} (h : Fits (t ++ rest)) : (cut t).2.length < 1023 := by
  have hopen := (nl_notMem_cut t).2
  by_cases hnl : nl ∈ rest
  · obtain ⟨line, z, hline, rfl⟩ := exists_line (notMem_right h.nul) hnl
    have hno : nl ∉ (cut t).2 ++ line := by simp [hopen, hline]
    have hmem : (cut t).2 ++ line ∈ (cut (t ++ (line ++ nl :: z))).1 := by
      rw [cut_append, ← List.append_assoc, cut_line hno]
      exact List.mem_append_right _ List.mem_cons_self
    have hlen := h.lines _ hmem
    rw [List.length_append] at hlen
    omega
  · have hno : nl ∉ (cut t).2 ++ rest := by simp [hopen, hnl]
    have hlen := h.rest
    rw [cut_append, cut_open hno, List.length_append] at hlen
    omega

theorem run_halved (h : Fits stream) {before behind : List Str} {u v : Str} (hu : u ≠ [])
    (hcut : (cut stream).1 = before ++ (u ++ v) :: behind) :
    run (step re) start (halved before u v behind (cut stream).2) =
      some ⟨[], printed re before ++ printed re (v :: behind)⟩ := by
  have hall : ∀ l ∈ before ++ (u ++ v) :: behind, 0 ∉ l ∧ nl ∉ l ∧ l.length < 1023 := by
    rw [← hcut]
    exact fun l hl => h.line hl
  rw [List.forall_mem_append, List.forall_mem_cons] at hall
  obtain ⟨hbefore, ⟨hl0, hlnl, hllen⟩, hbehind⟩ := hall
  rw [List.mem_append, not_or] at hl0 hlnl
  rw [List.length_append] at hllen
  obtain ⟨hr0, hrnl, hrlen⟩ := h.rest_line
  have hv : ∀ l ∈ v :: behind, 0 ∉ l ∧ nl ∉ l ∧ l.length < 1023 :=
    List.forall_mem_cons.mpr ⟨⟨hl0.2, hlnl.2, by omega⟩, hbehind⟩
  have hA : run (step re) start (before.map (· ++ [nl])) = some ⟨[], [] ++ printed re before⟩ :=
    run_lines (fun l hl => (hbefore l hl).1) (fun l hl => (hbefore l hl).2.1)
      fun l hl => (hbefore l hl).2.2
  have hB : run (step re) ⟨[], printed re before⟩ ((v :: behind).map (· ++ [nl])) =
      some ⟨[], printed re before ++ printed re (v :: behind)⟩ :=
    run_lines (fun l hl => (hv l hl).1) (fun l hl => (hv l hl).2.1) fun l hl => (hv l hl).2.2
  refine run_append_eq_some.mpr ⟨_, hA, ?_⟩
  refine run_cons_eq_some.mpr ⟨_, step_forgets hu hl0.1 hlnl.1 (by omega), ?_⟩
  rw [← List.cons_append, ← List.map_cons (f := (· ++ [nl]))]
  exact run_append_eq_some.mpr ⟨_, hB, run_lastPiece hr0 hrnl hrlen⟩

/-- The two pieces give the right output only if neither the line nor the end of it matches. -/
theorem unmatched_of_exact {before behind : List Str} {u v : Str} (hu : u ≠ [])
    (h : printed re before ++ printed re (v :: behind) =
      printed re (before ++ (u ++ v) :: behind)) :
    matchRe re (u ++ v) = false ∧ matchRe re v = false := by
  rw [printed_append, List.append_cancel_left_eq, printed_cons, printed_cons,
    List.append_cancel_right_eq] at h
  have hlen := congrArg List.length h
  have hpos := List.length_pos_iff.mpr hu
  cases hl : matchRe re (u ++ v) <;> cases hv : matchRe re v <;> simp [hl, hv, hu] at hlen ⊢

end Streams

/-! ## grep -/

/-- For every pattern and every stream without NULs whose lines are shorter than 1023 bytes: `grep`
writes the matching lines, however `read` splits the stream, exactly if neither a line with something
in it nor an end of such a line matches. It writes them whenever each piece but the last one has a
newline. `grep` never asks `read` for nothing, so it reads the whole stream. -/
theorem grep_exact_iff (re stream : Str) (h : Fits stream) :
    ((∀ pieces s, pieces.flatten = stream → run (step re) start pieces = some s →
        s.out = printed re (cut stream).1) ↔ ∀ l ∈ (cut stream).1, Unmatched re l) ∧
    (∀ pieces s, pieces.flatten = stream → run (step re) start pieces = some s →
      (∀ piece ∈ pieces.dropLast, nl ∈ piece) → s.out = printed re (cut stream).1) ∧
    ∀ pieces s, pieces.flatten <+: stream → run (step re) start pieces = some s →
      0 < request s := by
  refine ⟨⟨?_, ?_⟩, ?_, ?_⟩
  · intro hexact l hl u v hluv hu
    obtain ⟨before, behind, hcut⟩ := List.append_of_mem hl
    rw [hluv] at hcut ⊢
    have hflat : (halved before u v behind (cut stream).2).flatten = stream := by
      rw [halved_flatten, ← hcut, flatMap_cut]
    have hout := hexact _ _ hflat (run_halved h hu hcut)
    rw [hcut] at hout
    exact unmatched_of_exact hu hout
  · rintro hls pieces s rfl hrun
    obtain ⟨seen, hseen, hout⟩ := (seen_run h.nul hrun).out
    rw [hout]
    exact printed_seen hseen hls
  · rintro pieces s rfl hrun hnl
    exact out_of_newlines h.nul hnl hrun
  · rintro pieces s ⟨rest, hrest⟩ hrun
    rw [← hrest] at h
    have h0 : 0 ∉ pieces.flatten := fun hm => h.nul (List.mem_append_left _ hm)
    have hle := (seen_run h0 hrun).carry.length_le
    have hopen := h.open_length
    unfold request
    omega

def abLine : Str := [chr 'a', chr 'b', nl]

theorem abLine_cut : cut abLine = ([[chr 'a', chr 'b']], []) := by decide

theorem abLine_fits : Fits abLine where
  nul := by decide
  lines := by
    rw [abLine_cut]
    decide
  rest := by
    rw [abLine_cut]
    decide

theorem grep_exact_iff_line : ∃ s, run (step [chr 'a']) start [abLine] = some s ∧
    s.out = printed [chr 'a'] (cut abLine).1 := by
  obtain ⟨s, hs⟩ := exists_step [chr 'a'] (s := start) (by decide : abLine ≠ []) (by decide)
  have hrun : run (step [chr 'a']) start [abLine] = some s := (run_singleton start abLine).trans hs
  exact ⟨s, hrun, (grep_exact_iff [chr 'a'] abLine abLine_fits).2.1 [abLine] s (by simp) hrun nofun⟩

/-- `grep a` on the line `ab`, which a pipe delivers in two pieces: it writes nothing. -/
theorem grep_loses_line : Fits abLine ∧ [[chr 'a'], [chr 'b', nl]].flatten = abLine ∧
    run (step [chr 'a']) start [[chr 'a'], [chr 'b', nl]] = some ⟨[], []⟩ ∧
    printed [chr 'a'] (cut abLine).1 = abLine := by
  have hb : matchRe [chr 'a'] [chr 'b'] = false := by
    simp [matchRe, search, matchhere, starred, chr]
  have hab : matchRe [chr 'a'] [chr 'a', chr 'b'] = true := by
    simp [matchRe, search, matchhere, starred, chr]
  refine ⟨abLine_fits, rfl, ?_, ?_⟩
  · have hrun : run (step [chr 'a']) start (halved [] [chr 'a'] [chr 'b'] [] []) =
        some ⟨[], printed [chr 'a'] [] ++ printed [chr 'a'] [[chr 'b']]⟩ :=
      run_halved abLine_fits (by decide) (congrArg Prod.fst abLine_cut)
    rw [printed_cons, hb] at hrun
    exact hrun
  · rw [abLine_cut, printed_cons, hab]
    rfl

end DuckoUnix.Grep
