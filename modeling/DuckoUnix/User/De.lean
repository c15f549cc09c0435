import DuckoUnix.Sys.Report

/-!
# The editor

`de.c` from the `open` on. The file is opened with `O_WRONLY | O_CREATE`: `sys_open` and `create` leave
the contents of a file that is there alone, and make an empty one otherwise. So `de` starts with an
open file at offset 0 that holds what it held before, and one `write` stores the text.
-/

namespace DuckoUnix.De

open Lib Fs Inode Sys

def BUFFER_SIZE : ℕ := 2048

/-- `while((n = read(0, buf + total, BUFFER_SIZE - total - 1)) > 0)`: the bytes in `buf` behind the
loop, where `pieces` is what the calls of `read` have to return. -/
def readLoop : List (List (BitVec 8)) → List (BitVec 8) → List (BitVec 8)
  | [], buf => buf
  | piece :: pieces, buf =>
    let piece := piece.take (BUFFER_SIZE - buf.length - 1)
    if piece = [] then buf
    else if BUFFER_SIZE - 1 ≤ (buf ++ piece).length then buf ++ piece
    else readLoop pieces (buf ++ piece)

/-- `de` on the file `ip`; true if it reports that the file was saved. -/
def de (ip : Ip) (pieces : List (List (BitVec 8))) : Prog (Store × ℕ) Halt Bool := do
  let buf := readLoop pieces []
  let r ← writeFile true ip buf
  return r = some buf.length

theorem readLoop_eq {pieces : List (List (BitVec 8))} (hne : ∀ p ∈ pieces, p ≠ []) (buf : List (BitVec 8))
    (hlen : buf.length + pieces.flatten.length ≤ BUFFER_SIZE - 1) :
    readLoop pieces buf = buf ++ pieces.flatten := by
  induction pieces generalizing buf with
  | nil => simp [readLoop]
  | cons piece pieces ih =>
    rw [List.flatten_cons, List.length_append] at hlen
    have htake : piece.take (BUFFER_SIZE - buf.length - 1) = piece :=
      List.take_of_length_le (by omega)
    rw [readLoop, htake, if_neg (hne piece List.mem_cons_self), List.flatten_cons, ← List.append_assoc]
    split_ifs with hfull
    · -- the buffer is full, so there is nothing behind this piece
      rw [List.length_append] at hfull
      have hrest : pieces.flatten = [] := List.eq_nil_of_length_eq_zero (by omega)
      rw [hrest, List.append_nil]
    · apply ih fun p hp => hne p (List.mem_cons_of_mem piece hp)
      rw [List.length_append]
      omega

end DuckoUnix.De
