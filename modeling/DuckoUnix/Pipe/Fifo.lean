import DuckoUnix.Lib.Ring
import DuckoUnix.Pipe.Wakeup

/-!
# A pipe is a queue of bytes

The bytes in a pipe are a ring of `PIPESIZE` cells from `nread` on. The counters wrap around at
`2 ^ 32`, a multiple of `PIPESIZE`, so the cell of a counter does not see it. Each section of
`pipewrite` puts the bytes it stores behind the others and each section of `piperead` takes those
in front, and so along every run the bytes taken, followed by those still there, are the bytes
stored (`pipe_fifo`), and a reader is told that there are no more exactly when that is so
(`piperead_eof`).
-/

namespace DuckoUnix.Pipes

open Lib Function

variable {s s' : State} {q n : ℕ} {cs : List UInt8} {p : Pipe} {a : Act}

def Pipe.contents (p : Pipe) : List UInt8 := ring PIPESIZE p.data p.nread.toNat p.count

/-! ## One byte -/

/-- The writer's cell is the one behind the last byte in the pipe. -/
theorem Pipe.nwrite_cell (p : Pipe) :
    p.nwrite.toNat % PIPESIZE = (p.nread.toNat + p.count) % PIPESIZE := by
  unfold Pipe.count PIPESIZE
  bv_omega

/-- The counter wraps around at a multiple of `PIPESIZE`. -/
theorem Pipe.nread_succ_cell (p : Pipe) :
    (p.nread + 1).toNat % PIPESIZE = (p.nread.toNat + 1) % PIPESIZE := by
  unfold PIPESIZE
  bv_omega

theorem Pipe.contents_put {p : Pipe} (h : p.count < PIPESIZE) (c : UInt8) :
    (p.put c).contents = p.contents ++ [c] := by
  unfold Pipe.contents
  rw [Pipe.count_put h, ← ring_put h, ← p.nwrite_cell]
  rfl

theorem Pipe.contents_take {p : Pipe} (h : p.count ≠ 0) :
    p.contents = p.take.1 :: p.take.2.contents := by
  unfold Pipe.contents
  rw [← Pipe.count_take h, ring_succ, ring_mod p.nread_succ_cell.symm]
  rfl

/-! ## The loops -/

theorem fill_contents (cs : List UInt8) : ∀ p : Pipe, p.count ≤ PIPESIZE →
    (fill p cs).1.contents = p.contents ++ cs.take (cs.length - (fill p cs).2.length) := by
  induction cs with
  | nil =>
    intro p _
    rw [fill, List.take_nil, List.append_nil]
  | cons c cs ih =>
    intro p hp
    rw [fill]
    by_cases hf : p.full
    · rw [if_pos hf, Nat.sub_self, List.take_zero, List.append_nil]
    · rw [if_neg hf]
      have hlt : p.count < PIPESIZE := lt_of_le_of_ne hp fun h => hf (p.full_iff.mpr h)
      have hput := Pipe.count_put (c := c) hlt
      have hrest : (fill (p.put c) cs).2.length ≤ cs.length := by
        rw [(fill_spec cs (p.put c) (by omega)).1]
        exact (List.drop_sublist _ _).length_le
      rw [ih (p.put c) (by omega), Pipe.contents_put hlt, List.length_cons,
        Nat.succ_sub hrest, List.take_succ_cons, List.append_assoc, List.singleton_append]

theorem drain_contents (n : ℕ) : ∀ p : Pipe, (drain p n).2 ++ (drain p n).1.contents = p.contents := by
  induction n with
  | zero => intro p; rfl
  | succ n ih =>
    intro p
    rw [drain]
    by_cases he : p.nread = p.nwrite
    · rw [if_pos he, List.nil_append]
    · rw [if_neg he, Pipe.contents_take fun h => he (p.empty_iff.mpr h), ← ih p.take.2]
      rfl

/-! ## Sections and runs -/

/-- What has been taken, and what is still there, is what has been stored. -/
def Fifo (s : State) : Prop := s.removed ++ s.pipe.contents = s.stored

instance (s : State) : Decidable (Fifo s) := by unfold Fifo; infer_instance

theorem pipewrite_stored (s : State) (q n : ℕ) (cs : List UInt8) :
    (pipewrite s q n cs).removed = s.removed ∧ (pipewrite s q n cs).stored =
      s.stored ++ cs.take (cs.length - (fill s.pipe cs).2.length) := by
  unfold pipewrite
  cases hcase : (fill s.pipe cs).2 with
  | nil => simp only [hcase, and_self]
  | cons c rest => simp only [hcase]; split_ifs <;> exact ⟨rfl, rfl⟩

theorem pipewrite_fifo (hc : s.pipe.count ≤ PIPESIZE) (h : Fifo s) : Fifo (pipewrite s q n cs) := by
  obtain ⟨hremoved, hstored⟩ := pipewrite_stored s q n cs
  unfold Fifo at h ⊢
  rw [hremoved, hstored, pipewrite_pipe, fill_contents cs s.pipe hc, ← List.append_assoc, h]

theorem piperead_fifo (h : Fifo s) : Fifo (piperead s q n) := by
  unfold piperead
  split_ifs
  · exact h
  · exact h
  · show s.removed ++ (drain s.pipe n).2 ++ (drain s.pipe n).1.contents = s.stored
    rw [List.append_assoc, drain_contents]
    exact h

theorem step_fifo (hstep : step s a = some s') (hc : s.pipe.count ≤ PIPESIZE)
    (h : Fifo s) : Fifo s' := by
  rcases step_cases hstep with ⟨q, n, r, -, -, rfl⟩ | ⟨q, n, -, -, rfl⟩ | ⟨q, cs, r, -, -, rfl⟩ |
    ⟨q, n, rest, -, -, rfl⟩ | ⟨w, -, rfl⟩ | ⟨q, -, rfl⟩
  · exact piperead_fifo h
  · exact piperead_fifo h
  · exact pipewrite_fifo hc h
  · exact pipewrite_fifo hc h
  · cases w <;> exact h
  · exact h

/-- Along every run: the bytes that readers have taken, in order, followed by those still in the
pipe, are the bytes that writers have stored, and there are never more than `PIPESIZE`. -/
theorem pipe_fifo (as : List Act) (s : State) (h : run step init as = some s) :
    s.removed ++ s.pipe.contents = s.stored ∧ (s.pipe.nwrite - s.pipe.nread).toNat ≤ PIPESIZE := by
  have hinv : Fifo s ∧ s.pipe.count ≤ PIPESIZE :=
    run_invariant' (I := fun s => Fifo s ∧ s.pipe.count ≤ PIPESIZE)
      (fun s a s' hs hstep => ⟨step_fifo hstep hs.2 hs.1, step_count hstep hs.2⟩)
      ⟨by decide, by decide⟩ h
  exact hinv

/-- Two writers and a reader that takes some of what they wrote. -/
theorem pipe_fifo_two_writers :
    ∃ s, run step init [.write 0 [1, 2], .write 1 [3], .read 2 2] = some s ∧ s.removed = [1, 2] ∧
      s.removed ++ s.pipe.contents = s.stored ∧
        (s.pipe.nwrite - s.pipe.nread).toNat ≤ PIPESIZE :=
  ⟨_, rfl, by decide, pipe_fifo [.write 0 [1, 2], .write 1 [3], .read 2 2] _ rfl⟩

/-! ## The end of the file -/

theorem Pipe.contents_eq_nil : p.contents = [] ↔ p.nread = p.nwrite := by
  rw [p.empty_iff]
  unfold Pipe.contents ring
  rw [List.map_eq_nil_iff, List.range_eq_nil]

theorem drain_eq_nil (hn : 0 < n) : (drain p n).2 = [] ↔ p.nread = p.nwrite := by
  cases n with
  | zero => cases hn
  | succ n =>
    rw [drain]
    split_ifs with he <;> simp [he]

theorem piperead_zero_iff (h : Fifo s) (hn : 0 < n) :
    (piperead s q n).procs q = .idle 0 ↔ s.pipe.writeopen = false ∧ s.removed = s.stored := by
  have hempty : s.removed = s.stored ↔ s.pipe.nread = s.pipe.nwrite := by
    rw [← Pipe.contents_eq_nil, ← h, List.self_eq_append_right]
  rw [hempty]
  unfold piperead
  split_ifs with hwait hkilled
  · simp [hwait.2]
  · simp [hwait.2]
  · have hnil := drain_eq_nil (p := s.pipe) hn
    rw [← List.length_eq_zero_iff] at hnil
    simp only [update_self, PState.idle.injEq, Int.natCast_eq_zero, hnil]
    exact ⟨fun he => ⟨Bool.eq_false_iff.mpr fun hw => hwait ⟨he, hw⟩, he⟩, And.right⟩

/-- The section of `piperead` that a step runs: the process and the bytes it asks for. -/
def reads (s : State) : Act → Option (ℕ × ℕ)
  | .read q n => some (q, n)
  | .resume q =>
    match s.procs q with
    | .reading n false => some (q, n)
    | _ => none
  | _ => none

theorem step_reads (hstep : step s a = some s') (hr : reads s a = some (q, n)) :
    s' = piperead s q n := by
  rcases step_cases hstep with ⟨q, n, _, rfl, -, rfl⟩ | ⟨q, n, rfl, hq, rfl⟩ |
    ⟨q, cs, _, rfl, -, rfl⟩ | ⟨q, n, rest, rfl, hq, rfl⟩ | ⟨w, rfl, rfl⟩ | ⟨q, rfl, rfl⟩
  all_goals simp only [reads, *] at hr
  all_goals cases hr
  all_goals rfl

/-- In every run, a section of `piperead` that asks for some bytes returns 0 exactly when the write
end is closed and every byte that a writer has stored has been taken. -/
theorem piperead_eof (as : List Act) (hrun : run step init as = some s)
    (hstep : step s a = some s') (hr : reads s a = some (q, n)) (hn : 0 < n) :
    s'.procs q = .idle 0 ↔ s.pipe.writeopen = false ∧ s.removed = s.stored := by
  have hinv := run_invariant' (I := fun s => Fifo s ∧ s.pipe.count ≤ PIPESIZE)
    (fun s a s' hs hstep => ⟨step_fifo hstep hs.2 hs.1, step_count hstep hs.2⟩)
    ⟨by decide, by decide⟩ hrun
  rw [step_reads hstep hr]
  exact piperead_zero_iff hinv.1 hn

/-- A reader that sleeps in an empty pipe when the writer closes it. -/
theorem piperead_eof_closed :
    ∃ s s', run step init [.read 0 4, .close true] = some s ∧ step s (.resume 0) = some s' ∧
      s'.procs 0 = .idle 0 :=
  ⟨_, _, rfl, rfl, (piperead_eof (a := .resume 0) (n := 4) [.read 0 4, .close true] rfl rfl rfl
    (by decide)).mpr ⟨rfl, rfl⟩⟩

end DuckoUnix.Pipes
