import DuckoUnix.Bio.Coherence

/-!
# The log on disk

`write_log`, `install_trans`, `read_head` and `write_head` of `log.c`, round by round, as they go
through the buffer cache, and the format of the header block. Each round is described by what it
does to the view of the cache and to the disk.
-/

namespace DuckoUnix.LogDisk

open Lib Bio

variable {N : ℕ}

/-! ## The header block -/

/-- `struct logheader` in a block: `int n`, then the block numbers. -/
def readHeader (blk : Block) : List ℕ :=
  (List.range (BitVec.ofNat 32 (getLE blk 0 4)).toInt.toNat).map fun i => getLE blk (4 + i * 4) 4

def writeHeader (blk : Block) (block : List ℕ) : Block :=
  putArray (putLE blk 0 4 block.length) 4 4 block

theorem readHeader_writeHeader {blk : Block} {l : List ℕ} (hn : l.length < 2 ^ 31)
    (hl : ∀ b ∈ l, b < 2 ^ 32) : readHeader (writeHeader blk l) = l := by
  have hlen : (BitVec.ofNat 32 (getLE (writeHeader blk l) 0 4)).toInt.toNat = l.length := by
    unfold writeHeader
    rw [getLE_putArray_of_le (by omega), getLE_putLE, BitVec.toInt_eq_toNat_of_lt]
    · rw [BitVec.toNat_ofNat]
      omega
    · rw [BitVec.toNat_ofNat]
      omega
  refine List.ext_getElem (by rw [readHeader, hlen]; simp) fun k hk hk' => ?_
  simp only [readHeader, List.getElem_map, List.getElem_range]
  rw [writeHeader, getLE_putArray hk']
  exact Nat.mod_eq_of_lt (hl _ (List.getElem_mem hk'))

/-! ## The rounds -/

/-- A round of `write_log`: the block's buffer is copied to its log block. -/
def writeLog (m : Mem N) (p : Fin N) (logblock b : ℕ) : Except Stop (Mem N) := do
  let (m, to') ← bread m p logblock
  let (m, from') ← bread m p b
  let m ← bwrite (memmove m to' (m.buf from').data) p to'
  let m ← brelse m p from'
  brelse m p to'

/-- A round of `install_trans`: the log block is copied to the block's home. -/
def installTrans (m : Mem N) (p : Fin N) (logblock b : ℕ) : Except Stop (Mem N) := do
  let (m, lbuf) ← bread m p logblock
  let (m, dbuf) ← bread m p b
  let m ← bwrite (memmove m dbuf (m.buf lbuf).data) p dbuf
  let m ← brelse m p lbuf
  brelse m p dbuf

/-- `read_head`, with the header it reads. -/
def readHead (m : Mem N) (p : Fin N) (start : ℕ) : Except Stop (Mem N × List ℕ) := do
  let (m, i) ← bread m p start
  let block := readHeader (m.buf i).data
  let m ← brelse m p i
  .ok (m, block)

/-- `write_head` with the header `block`. -/
def writeHead (m : Mem N) (p : Fin N) (start : ℕ) (block : List ℕ) : Except Stop (Mem N) := do
  let (m, i) ← bread m p start
  let m ← bwrite (memmove m i (writeHeader (m.buf i).data block)) p i
  brelse m p i

section Rounds

variable {m m' : Mem N} {p : Fin N}

/-- The effect of a round: the disk and the view change at block `b`, which is clean then. -/
abbrev WritesBlock (m m' : Mem N) (b : ℕ) (d : Block) : Prop :=
  Writes m m' (Function.update (view m) b d) (Function.update m.disk b d)
    fun c => Dirty m c ∧ c ≠ b

theorem WritesBlock.of_same {m₁ : Mem N} {b : ℕ} {d : Block} (hs : Same m m₁)
    (hw : m₁.want = m.want) (h : WritesBlock m₁ m' b d) : WritesBlock m m' b d := by
  unfold WritesBlock at h ⊢
  rw [hs.view, hs.disk, hs.dirty] at h
  exact ⟨h.ok, h.disk, h.view, h.dirty, h.want.trans hw⟩

/-- Two buffers in hand, one of them written, both released. -/
theorem writesBlock_of_two {m₁ m₂ m₃ : Mem N} {b : ℕ} {d : Block} {i j k : Fin NBUF} (h : Ok m)
    (ht : ∀ i, m.touched i ≠ some p) (hl : (m.buf i).lock = some p) (hi : (m.buf i).Is ROOTDEV b)
    (h₁ : bwrite (memmove m i d) p i = .ok m₁) (h₂ : brelse m₁ p j = .ok m₂)
    (h₃ : brelse m₂ p k = .ok m₃) : WritesBlock m m₃ b d ∧ m₃.touched = m.touched := by
  obtain ⟨hw, ht₁⟩ := bwrite_writes h hl hi h₁
  obtain ⟨hok₂, hs₂, hw₂⟩ := brelse_ok hw.ok (by rw [ht₁]; exact ht j) h₂
  have ht₂ : m₂.touched = m.touched := hs₂.touched.trans ht₁
  obtain ⟨hok₃, hs₃, hw₃⟩ := brelse_ok hok₂ (by rw [ht₂]; exact ht k) h₃
  exact ⟨(hw.same hok₂ hs₂ hw₂).same hok₃ hs₃ hw₃, hs₃.touched.trans ht₂⟩

theorem writeLog_writes {logblock b : ℕ} (h : Ok m) (hp : m.want p = none)
    (ht : ∀ i, m.touched i ≠ some p) (hne : logblock ≠ b) (e : writeLog m p logblock b = .ok m') :
    WritesBlock m m' logblock (view m b) ∧ m'.touched = m.touched ∧
      ∀ l : List ℕ, l.Nodup → (∀ c ∈ l, Dirty m c) → logblock ∉ l → l.length < NBUF := by
  unfold writeLog at e
  obtain ⟨⟨m₁, to'⟩, h₁, e⟩ := bind_eq_ok.mp e
  obtain ⟨⟨m₂, from'⟩, h₂, e⟩ := bind_eq_ok.mp e
  obtain ⟨m₃, h₃, e⟩ := bind_eq_ok.mp e
  obtain ⟨m₄, h₄, h₅⟩ := bind_eq_ok.mp e
  have r₁ := bread_read h hp h₁
  have r₂ := bread_read r₁.ok (by rw [r₁.want]; exact hp) h₂
  have hs := r₁.same.trans r₂.same
  -- the log block's buffer is held across the second `bread`
  have hto : m₂.buf to' = m₁.buf to' :=
    r₂.held to' (by rw [r₁.lock]; rfl) fun e => hne (r₁.is.2.symm.trans e.2)
  have hd : (m₂.buf from').data = view m b := by rw [r₂.data, r₁.same.view]
  obtain ⟨hw, htouched⟩ := writesBlock_of_two r₂.ok (by rw [hs.touched]; exact ht)
    (by rw [hto]; exact r₁.lock) (by rw [hto]; exact r₁.is) h₃ h₄ h₅
  rw [hd] at hw
  refine ⟨.of_same hs (r₂.want.trans r₁.want) hw, htouched.trans hs.touched, fun l hn hl hb => ?_⟩
  have hlen := length_le_NBUF (m := m₁) (l := logblock :: l) (List.nodup_cons.mpr ⟨hb, hn⟩) (by
    intro c hc
    rcases List.mem_cons.mp hc with rfl | hc
    · exact ⟨to', r₁.is⟩
    · have hdirty : Dirty m₁ c := by rw [r₁.same.dirty]; exact hl c hc
      exact hdirty.imp fun _ hi => hi.1)
  exact hlen

theorem installTrans_writes {logblock b : ℕ} (h : Ok m) (hp : m.want p = none)
    (ht : ∀ i, m.touched i ≠ some p) (hne : logblock ≠ b)
    (e : installTrans m p logblock b = .ok m') :
    WritesBlock m m' b (view m logblock) ∧ m'.touched = m.touched := by
  unfold installTrans at e
  obtain ⟨⟨m₁, lbuf⟩, h₁, e⟩ := bind_eq_ok.mp e
  obtain ⟨⟨m₂, dbuf⟩, h₂, e⟩ := bind_eq_ok.mp e
  obtain ⟨m₃, h₃, e⟩ := bind_eq_ok.mp e
  obtain ⟨m₄, h₄, h₅⟩ := bind_eq_ok.mp e
  have r₁ := bread_read h hp h₁
  have r₂ := bread_read r₁.ok (by rw [r₁.want]; exact hp) h₂
  have hs := r₁.same.trans r₂.same
  have hl : m₂.buf lbuf = m₁.buf lbuf :=
    r₂.held lbuf (by rw [r₁.lock]; rfl) fun e => hne (r₁.is.2.symm.trans e.2)
  have hd : (m₂.buf lbuf).data = view m logblock := by rw [hl, r₁.data]
  obtain ⟨hw, htouched⟩ := writesBlock_of_two r₂.ok (by rw [hs.touched]; exact ht) r₂.lock r₂.is
    h₃ h₄ h₅
  rw [hd] at hw
  exact ⟨.of_same hs (r₂.want.trans r₁.want) hw, htouched.trans hs.touched⟩

theorem writeHead_writes {start : ℕ} {block : List ℕ} (h : Ok m) (hp : m.want p = none)
    (ht : ∀ i, m.touched i ≠ some p) (e : writeHead m p start block = .ok m') :
    WritesBlock m m' start (writeHeader (view m start) block) ∧ m'.touched = m.touched := by
  unfold writeHead at e
  obtain ⟨⟨m₁, i⟩, h₁, e⟩ := bind_eq_ok.mp e
  obtain ⟨m₂, h₂, h₃⟩ := bind_eq_ok.mp e
  have r := bread_read h hp h₁
  obtain ⟨hw, ht₂⟩ := bwrite_writes r.ok r.lock r.is h₂
  have ht₂ : m₂.touched = m.touched := ht₂.trans r.same.touched
  obtain ⟨hok, hs, hw₃⟩ := brelse_ok hw.ok (by rw [ht₂]; exact ht i) h₃
  have hwb : WritesBlock m₁ m' start (writeHeader (view m start) block) := by
    rw [← r.data]
    exact hw.same hok hs hw₃
  exact ⟨.of_same r.same r.want hwb, hs.touched.trans ht₂⟩

theorem readHead_reads {start : ℕ} {block : List ℕ} (h : Ok m) (hp : m.want p = none)
    (ht : ∀ i, m.touched i ≠ some p) (e : readHead m p start = .ok (m', block)) :
    Ok m' ∧ Same m m' ∧ m'.want = m.want ∧ block = readHeader (view m start) := by
  unfold readHead at e
  obtain ⟨⟨m₁, i⟩, h₁, e⟩ := bind_eq_ok.mp e
  obtain ⟨m₂, h₂, e⟩ := bind_eq_ok.mp e
  cases e
  have r := bread_read h hp h₁
  obtain ⟨hok, hs, hw⟩ := brelse_ok r.ok (by rw [r.same.touched]; exact ht i) h₂
  exact ⟨hok, r.same.trans hs, hw.trans r.want, by rw [r.data]⟩

end Rounds

end DuckoUnix.LogDisk
