import DuckoUnix.Fs.Dirs
import DuckoUnix.Sys.Filewrite

/-!
# What a write reports

One call of `filewrite` that nobody interrupts, on a regular file with any contents and any offset.
It writes chunk after chunk until `writei` refuses one. It then returns -1, and the chunks before
that one stay in the file with the offset behind them: -1 means that nothing was written unless the
file grows to its largest size on the way.
-/

namespace DuckoUnix.Sys

open Lib Fs Inode

variable {src data : List (BitVec 8)} {i j k m off inum : ℕ} {ip : Ip} {t : Store} {p : Store × ℕ}

/-- `filewrite` of a file that is an inode; the state is the store and `f->off`. -/
def writeFile (writable : Bool) (ip : Ip) (src : List (BitVec 8)) :
    Prog (Store × ℕ) Halt (Option ℕ) :=
  if writable = false then pure none else (Sys.call src).alone (WriteOp.code ip)

/-- The file has these contents, and nobody has locked it. -/
def Holds (ip : Ip) (i : ℕ) (c : List (BitVec 8)) (t : Store) : Prop :=
  ∃ v, Rep t v ∧ Ready ip i c v

/-! ## One chunk -/

theorem write_wp {E : Halt → Prop} {Q : Option ℕ → Store × ℕ → Prop}
    (h : wp E (writeAt ip off src).code (fun r t' => Q r (t', (off + r.getD 0) % UINT)) t) :
    wp E ((WriteOp.write src).code ip) Q (t, off) := by
  have hcode : (WriteOp.write src).code ip (t, off) = ((writeAt ip off src).code t).map
      fun q => (q.1, q.2, (off + q.1.getD 0) % UINT) := rfl
  unfold wp at h ⊢
  rw [hcode]
  cases hx : (writeAt ip off src).code t with
  | error e =>
    rw [hx] at h
    exact h
  | ok q =>
    rw [hx] at h
    exact h

theorem begin_op_wp {E : Halt → Prop} {Q : Unit → Store × ℕ → Prop} (h : Holds ip inum data t)
    (hQ : ∀ t' v, Rep t' v → Ready ip inum data v → 0 < v.outstanding →
      nfree t'.sb t'.disk = nfree t.sb t.disk → Q () (t', off)) :
    wp E (WriteOp.begin_op.code ip) Q (t, off) := by
  obtain ⟨v, hrep, hready⟩ := h
  obtain ⟨-, hrep', -⟩ := (refines_ok rfl).mp (Op.refines .begin_op hrep)
  exact hQ _ _ hrep' ⟨hready.ref, hready.inum, hready.unlocked, hready.type, hready.data⟩
    (Nat.succ_pos _) rfl

theorem end_op_wp {E : Halt → Prop} {Q : Unit → Store × ℕ → Prop} (h : Holds ip inum data t)
    (hQ : ∀ t', Holds ip inum data t' → nfree t'.sb t'.disk = nfree t.sb t.disk → Q () (t', off)) :
    wp E (WriteOp.end_op.code ip) Q (t, off) := by
  obtain ⟨v, hrep, hready⟩ := h
  obtain ⟨-, hrep', -⟩ := (refines_ok rfl).mp (Op.refines .end_op hrep)
  exact hQ _ ⟨_, hrep', ⟨hready.ref, hready.inum, hready.unlocked, hready.type, hready.data⟩⟩ rfl

/-- A chunk is written or refused as a whole, and it takes six blocks at most. -/
theorem chunk_wp (h : Holds ip inum data t) (hsrc : src.length ≤ maxWrite) (off : ℕ) :
    wp (fun e => e.1 = .outOfBlocks ∧ nfree t.sb t.disk < 6) ((chunk src).alone (WriteOp.code ip))
      (fun r p => r = (writeBytes data off src).1 ∧ Holds ip inum (writeBytes data off src).2 p.1 ∧
        p.2 = (off + r.getD 0) % UINT ∧ nfree t.sb t.disk ≤ nfree p.1.sb p.1.disk + 6) (t, off) := by
  unfold chunk
  simp only [Thread.alone_bind, Thread.alone_op, Thread.alone_pure, wp_bind, wp_pure]
  refine begin_op_wp h fun t₁ v₁ hrep₁ hready₁ hop hfree₁ => ?_
  have hspec := (T.refines _ hrep₁).wp_room
    (writeAt_wp hready₁ (hready₁.valid hrep₁) hop hsrc off)
  refine write_wp (wp_weaken (wp_mono hspec ?_) ?_)
  · rintro r t₂ ⟨⟨v₂, hrep₂, hr, hready₂, -⟩, hroom⟩
    refine end_op_wp ⟨v₂, hrep₂, hready₂⟩ fun t₃ h₃ hfree₃ => ?_
    refine ⟨hr, h₃, rfl, ?_⟩
    rw [hfree₃, ← hfree₁]
    exact hroom
  · rintro e ⟨he, hlt⟩
    rw [← hfree₁]
    exact ⟨he, hlt⟩

/-! ## The loop -/

theorem patch_nil (data : List (BitVec 8)) (off : ℕ) : patch data off [] = data := by
  unfold patch
  rw [List.append_nil]
  exact List.take_append_drop off data

theorem patch_patch {src' : List (BitVec 8)} (hoff : off ≤ data.length) :
    patch (patch data off src) (off + src.length) src' = patch data off (src ++ src') := by
  have hoff' : off + src.length ≤ (patch data off src).length := by
    rw [length_patch src hoff]
    exact Nat.le_max_right _ _
  refine List.ext_getElem? fun o => ?_
  rw [getElem?_patch hoff', getElem?_patch hoff, getElem?_patch hoff, List.length_append]
  by_cases h₁ : o < off
  · rw [if_neg (by omega), if_neg (by omega), if_neg (by omega)]
  by_cases h₂ : o < off + src.length
  · rw [if_neg (by omega), if_pos (by omega), if_pos (by omega),
      List.getElem?_append_left (by omega)]
  by_cases h₃ : o < off + src.length + src'.length
  · rw [if_pos (by omega), if_pos (by omega), List.getElem?_append_right (by omega), Nat.sub_sub]
  · rw [if_neg (by omega), if_neg (by omega), if_neg (by omega)]

/-- The first `j` bytes have been written to the file, and no others. -/
structure Written (ip : Ip) (i : ℕ) (data : List (BitVec 8)) (off : ℕ) (src : List (BitVec 8)) (j : ℕ)
    (p : Store × ℕ) : Prop where
  le : j ≤ src.length
  file : Holds ip i (patch data off (src.take j)) p.1
  offset : p.2 = off + j
  fits : 0 < j → off ≤ data.length ∧ off + j ≤ MAXFILE * BSIZE
  whole : 0 < j → j = src.length ∨ maxWrite ≤ j

/-- The chunk from byte `j` on is refused. -/
def Refused (data : List (BitVec 8)) (off n j : ℕ) : Prop :=
  data.length < off ∨ MAXFILE * BSIZE < off + j + min (n - j) maxWrite

theorem Written.start (h : Holds ip i data t) : Written ip i data off src 0 (t, off) where
  le := Nat.zero_le _
  file := by
    rw [List.take_zero, patch_nil]
    exact h
  offset := rfl
  fits h := absurd h (Nat.lt_irrefl 0)
  whole h := absurd h (Nat.lt_irrefl 0)

/-- The next chunk. -/
def nextChunk (src : List (BitVec 8)) (j : ℕ) : List (BitVec 8) :=
  (src.drop j).take (min (src.length - j) maxWrite)

theorem length_nextChunk : (nextChunk src j).length = min (src.length - j) maxWrite := by
  unfold nextChunk
  rw [List.length_take, List.length_drop]
  omega

theorem take_nextChunk : src.take j ++ nextChunk src j =
    src.take (j + min (src.length - j) maxWrite) := by
  unfold nextChunk
  rw [List.take_add]

theorem Written.tooFar (h : Written ip i data off src j p) :
    TooFar (patch data off (src.take j)) (off + j) (nextChunk src j).length ↔
      Refused data off src.length j := by
  unfold Refused
  rw [tooFar_iff, length_nextChunk]
  by_cases hj : 0 < j
  · have hfits := h.fits hj
    have hle := h.le
    rw [length_patch _ hfits.1, List.length_take, Nat.min_eq_left h.le]
    omega
  · have hzero : j = 0 := by omega
    rw [hzero, List.take_zero, patch_nil]
    rfl

theorem Written.lt (h : Written ip i data off src j p) (hoff : off < UINT) : off + j < UINT := by
  have hmax : MAXFILE * BSIZE = 71680 := rfl
  by_cases hj : 0 < j
  · have hfits := (h.fits hj).2
    unfold UINT
    omega
  · omega

theorem Written.refused {t' : Store} (h : Written ip i data off src j p)
    (hoff : off < UINT) (hfile : Holds ip i (patch data off (src.take j)) t') :
    Written ip i data off src j (t', (off + j + 0) % UINT) where
  le := h.le
  file := hfile
  offset := Nat.mod_eq_of_lt (h.lt hoff)
  fits := h.fits
  whole := h.whole

theorem Written.next {t' : Store} (h : Written ip i data off src j p)
    (hr : ¬ Refused data off src.length j)
    (hfile : Holds ip i (patch (patch data off (src.take j)) (off + j) (nextChunk src j)) t') :
    Written ip i data off src (j + (nextChunk src j).length)
      (t', (off + j + (nextChunk src j).length) % UINT) := by
  have hmax : MAXFILE * BSIZE = 71680 := rfl
  have hle := h.le
  unfold Refused at hr
  rw [← length_nextChunk] at hr
  have hlen : (nextChunk src j).length = min (src.length - j) maxWrite := length_nextChunk
  refine ⟨by omega, ?_, ?_, fun _ => by omega, fun _ => by omega⟩
  · have htake : (src.take j).length = j := by
      rw [List.length_take]
      omega
    have hpatch : patch (patch data off (src.take j)) (off + (src.take j).length) (nextChunk src j) =
        patch data off (src.take j ++ nextChunk src j) := patch_patch (by omega)
    rw [htake, take_nextChunk, ← length_nextChunk] at hpatch
    rwa [hpatch] at hfile
  · refine (Nat.mod_eq_of_lt ?_).trans (Nat.add_assoc _ _ _)
    unfold UINT
    omega

/-- The loop stops at the first chunk that is refused. -/
theorem filewriteLoop_wp {b : ℕ} (h : Written ip i data off src j p) (hoff : off < UINT)
    (hk : src.length ≤ k + j) (hj : j = min (m * maxWrite) src.length)
    (hroom : b ≤ nfree p.1.sb p.1.disk + 6 * m) :
    wp (fun e => e.1 = .outOfBlocks ∧ b < 6 * npieces src)
      ((filewriteLoop chunk (Thread.op (.panic .shortFilewrite)) src k j).alone (WriteOp.code ip))
      (fun j' p' => Written ip i data off src j' p' ∧
        (j' = src.length ∨ Refused data off src.length j')) p := by
  induction k generalizing j m p with
  | zero =>
    have hle := h.le
    exact ⟨h, .inl (by omega)⟩
  | succ k ih =>
    by_cases hlt : j < src.length
    · rw [filewriteLoop_succ hlt, Thread.alone_bind, wp_bind]
      obtain ⟨t, o⟩ := p
      obtain rfl : o = off + j := h.offset
      have hlen : (nextChunk src j).length = min (src.length - j) maxWrite := length_nextChunk
      have hm : m < npieces src := by
        unfold npieces
        rw [maxWrite_eq] at *
        omega
      have hchunk := chunk_wp h.file (by rw [hlen]; exact Nat.min_le_right _ _) (off + j)
      refine wp_weaken (wp_mono hchunk ?_) ?_
      · rintro r ⟨t', o'⟩ ⟨rfl, hfile, ho, hfree⟩
        cases ho
        have hfree' : nfree t.sb t.disk ≤ nfree t'.sb t'.disk + 6 := hfree
        have hroom' : b ≤ nfree t.sb t.disk + 6 * m := hroom
        by_cases hfar : Refused data off src.length j
        · have hbytes : writeBytes (patch data off (src.take j)) (off + j) (nextChunk src j) =
              (none, _) := if_pos (h.tooFar.mpr hfar)
          rw [hbytes] at hfile ⊢
          exact ⟨h.refused hoff hfile, .inr hfar⟩
        · have hbytes : writeBytes (patch data off (src.take j)) (off + j) (nextChunk src j) =
              (some _, _) := if_neg (mt h.tooFar.mp hfar)
          rw [hbytes] at hfile ⊢
          have hnext : next src k j (some (nextChunk src j).length) = filewriteLoop chunk
              (Thread.op (.panic .shortFilewrite)) src k (j + (nextChunk src j).length) :=
            if_neg (not_not.mpr hlen)
          rw [hnext]
          refine ih (m := m + 1) (h.next hfar hfile) ?_ ?_ ?_
          · rw [maxWrite_eq] at hlen
            omega
          · rw [Nat.succ_mul]
            omega
          · show b ≤ nfree t'.sb t'.disk + 6 * (m + 1)
            omega
      · rintro e ⟨he, hfew⟩
        exact ⟨he, by omega⟩
    · have hle := h.le
      unfold filewriteLoop
      rw [if_neg hlt]
      exact ⟨h, .inl (by omega)⟩

/-! ## The call -/

theorem openStore_nfree : nfree openStore.sb openStore.disk = 941 := emptyStore_nfree

def bytes (i : ℕ) (t : Store) : List (BitVec 8) := content t.disk (dinode t.sb t.disk i)

/-- The call has written all bytes at the old offset and returns their number, or it returns -1 and
nothing has changed. The size of the file is the number of its bytes. -/
def Exact (i : ℕ) (src : List (BitVec 8)) (p : Store × ℕ) (r : Option ℕ) (p' : Store × ℕ) : Prop :=
  (r = some src.length ∧ bytes i p'.1 = patch (bytes i p.1) p.2 src ∧ p'.2 = p.2 + src.length) ∨
  (r = none ∧ bytes i p'.1 = bytes i p.1 ∧ p'.2 = p.2)

/-- There is room in the file for the first chunk of `n` bytes, and not for all of them. -/
def CutShort (size off n : ℕ) : Prop :=
  off ≤ size ∧ off + maxWrite ≤ MAXFILE * BSIZE ∧ MAXFILE * BSIZE < off + n

theorem Written.bytes_eq (h : Written ip i data off src j p) :
    bytes i p.1 = patch data off (src.take j) := by
  obtain ⟨v, hrep, hready⟩ := h.file
  exact hready.content hrep

/-- A call that has written something and returns -1 is one that was cut short. -/
theorem Written.pos_iff (h : Written ip i data off src j p) (hne : j ≠ src.length)
    (hr : Refused data off src.length j) : 0 < j ↔ CutShort data.length off src.length := by
  have hle := h.le
  unfold Refused at hr
  unfold CutShort
  constructor
  · intro hj
    have hfits := h.fits hj
    have hlong := (h.whole hj).resolve_left hne
    omega
  · rintro ⟨hoff, hfirst, hall⟩
    refine Nat.pos_of_ne_zero fun hj => ?_
    omega

theorem Written.exact_iff {p' : Store × ℕ} (hp : bytes i t = data)
    (h : Written ip i data off src j p') (hj : j = src.length ∨ Refused data off src.length j) :
    Exact i src (t, off) (if j = src.length then some j else none) p' ↔
      ¬ CutShort data.length off src.length := by
  have hbytes := h.bytes_eq
  unfold Exact
  by_cases hall : j = src.length
  · rw [hall, List.take_length] at hbytes
    rw [if_pos hall, hp]
    refine iff_of_true (.inl ⟨congrArg some hall, hbytes, ?_⟩) ?_
    · rw [h.offset, hall]
    · rintro ⟨-, hfirst, hmax⟩
      by_cases hpos : 0 < j
      · have hfits := h.fits hpos
        omega
      · omega
  · have hr := hj.resolve_left hall
    rw [if_neg hall, hp, ← h.pos_iff hall hr]
    constructor
    · rintro (⟨hnone, -⟩ | ⟨-, -, hoff⟩) hpos
      · cases hnone
      · have hoff' : p'.2 = off := hoff
        rw [h.offset] at hoff'
        omega
    · intro hpos
      have hzero : j = 0 := Nat.eq_zero_of_not_pos hpos
      rw [hzero, List.take_zero, patch_nil] at hbytes
      refine .inr ⟨rfl, hbytes, ?_⟩
      rw [h.offset, hzero]
      rfl

theorem writeFile_wp (h : Holds ip i data t) (hoff : off < UINT) (src : List (BitVec 8)) :
    wp (fun e => e.1 = .outOfBlocks ∧ nfree t.sb t.disk < 6 * npieces src) (writeFile true ip src)
      (fun r p => ∃ j, r = (if j = src.length then some j else none) ∧
        Written ip i data off src j p ∧ (j = src.length ∨ Refused data off src.length j)) (t, off) := by
  have hstart : Written ip i data off src 0 (t, off) := .start h
  have hloop := filewriteLoop_wp (k := src.length) (m := 0) (b := nfree t.sb t.disk) hstart hoff
    (Nat.le_add_right _ _) (by rw [Nat.zero_mul]; omega) le_rfl
  unfold writeFile Sys.call filewrite
  rw [if_neg (by decide), Thread.alone_bind, wp_bind]
  refine wp_mono hloop ?_
  rintro j p ⟨hw, hj⟩
  exact ⟨j, rfl, hw, hj⟩

/-- For every regular file that is open, every offset and all bytes: unless the blocks run out, the
call returns; and it has reported exactly what it did, unless the file grows to its largest size
after the first chunk and before the last. -/
theorem filewrite_reports {t : Store} (ht : Consistent t) (hr : 0 < (t.icache ip).ref)
    (hu : (t.icache ip).locked = false)
    (hf : (dinode t.sb t.disk (t.icache ip).inum).type = T_FILE) (hoff : off < UINT)
    (writable : Bool) (src : List (BitVec 8)) :
    wp (fun e => e.1 = .outOfBlocks ∧ nfree t.sb t.disk < 6 * npieces src)
      (writeFile writable ip src)
      (fun r p => Exact (t.icache ip).inum src (t, off) r p ↔
        ¬ (writable = true ∧
          CutShort (dinode t.sb t.disk (t.icache ip).inum).size.toNat off src.length)) (t, off) := by
  cases writable with
  | false => exact iff_of_true (.inr ⟨rfl, rfl, rfl⟩) fun h => Bool.false_ne_true h.1
  | true =>
    refine wp_mono (writeFile_wp ⟨_, ht.rep, ready_view hr hu hf⟩ hoff src) ?_
    rintro r p ⟨j, rfl, hw, hj⟩
    have hsize : (bytes (t.icache ip).inum t).length =
        (dinode t.sb t.disk (t.icache ip).inum).size.toNat := length_content
    rw [hw.exact_iff rfl hj, hsize]
    simp only [true_and]

theorem filewrite_reports_two : ∃ r p, writeFile true ip0 [104, 105] (openStore, 0) = .ok (r, p) ∧
    Exact 1 [104, 105] (openStore, 0) r p := by
  have hr : 0 < (openStore.icache ip0).ref := by decide
  have hoff : 0 < UINT := by decide
  have h := filewrite_reports openStore_consistent hr (by decide) (by decide +kernel) hoff true
    [104, 105]
  cases hx : writeFile true ip0 [104, 105] (openStore, 0) with
  | error e =>
    have hfew := (wp_error h hx).2
    rw [openStore_nfree] at hfew
    exact absurd hfew (by decide)
  | ok q => exact ⟨q.1, q.2, rfl, (wp_ok h hx).mpr fun hcut => absurd hcut.2.2.2 (by decide)⟩

/-- A write to an empty file of one byte more than a file can hold: it returns -1, and the offset has
moved. -/
theorem filewrite_cut_short : ∃ r p,
    writeFile true ip0 (List.replicate 71681 0) (openStore, 0) = .ok (r, p) ∧
      ¬ Exact 1 (List.replicate 71681 0) (openStore, 0) r p := by
  have hr : 0 < (openStore.icache ip0).ref := by decide
  have hoff : 0 < UINT := by decide
  have hready := ready_view hr (by decide) (by decide +kernel)
  have hlen : (List.replicate 71681 (0 : BitVec 8)).length = 71681 := List.length_replicate
  generalize List.replicate 71681 (0 : BitVec 8) = src at hlen ⊢
  have h := writeFile_wp ⟨_, openStore_consistent.rep, hready⟩ hoff src
  cases hx : writeFile true ip0 src (openStore, 0) with
  | error e =>
    have hfew := (wp_error h hx).2
    rw [openStore_nfree] at hfew
    unfold npieces at hfew
    rw [hlen] at hfew
    exact absurd hfew (by decide)
  | ok q =>
    obtain ⟨j, hq, hw, hj⟩ := wp_ok h hx
    refine ⟨q.1, q.2, rfl, fun hexact => ?_⟩
    rw [hq] at hexact
    refine (hw.exact_iff rfl hj).mp hexact ?_
    rw [hlen]
    exact ⟨Nat.zero_le _, by decide, by decide⟩

end DuckoUnix.Sys
