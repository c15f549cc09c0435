import DuckoUnix.Fs.Budget
import DuckoUnix.Inode.Refine

/-!
# `readi` and `writei`

For an inode that is no device, `readi` and `writei` read and write a byte array. And a chunk of
`filewrite` fits into one transaction.
-/

namespace DuckoUnix.Inode

open Lib Fs

variable {s s' : Store} {ip : Ip} {off n : ℕ} {src : List (BitVec 8)} {α β : Type}
  {E : Halt → Prop}

/-! ## Code without interruption -/

@[simp] theorem code_bind (t : T α) (f : α → T β) :
    T.code (t >>= f) = T.code t >>= fun a => T.code (f a) := Thread.alone_bind _ t f

@[simp] theorem code_op (o : Op α) : T.code (Thread.op o) = o.code := Thread.alone_op _ o

theorem writei_file (ht : (s.icache ip).din.type ≠ T_DEV) :
    (writei ip src off).code s = writeFile ip src off s := by
  unfold writei look
  rw [code_bind, code_op]
  show (T.code (if (s.icache ip).din.type = T_DEV then _ else _)) s = _
  rw [if_neg ht, code_op]
  rfl

theorem readi_file (ht : (s.icache ip).din.type ≠ T_DEV) {input : Option (List (BitVec 8))} :
    (readi ip off n input).code s = readFile ip off n s := by
  unfold readi look
  rw [code_bind, code_op]
  show (T.code (if (s.icache ip).din.type = T_DEV then _ else _)) s = _
  rw [if_neg ht, code_op]
  rfl

/-! ## Byte arrays -/

/-- A write of `n` bytes at `off` that `writei` accepts. -/
def Fits32 (size : ℕ) (off n : BitVec 32) : Prop :=
  off.toNat ≤ size ∧ off.toNat + n.toNat < 2 ^ 32 ∧ off.toNat + n.toNat ≤ MAXFILE * BSIZE

theorem fits32_iff {size : ℕ} {off n : BitVec 32} : Fits32 size off n ↔
    ¬ (size < off.toNat ∨ (off.toNat + n.toNat) % UINT < off.toNat ∨
      MAXFILE * BSIZE < off.toNat + n.toNat) := by
  have h₁ := off.isLt
  have h₂ := n.isLt
  unfold Fits32 UINT
  omega

def OthersKept (ip : Ip) (s s' : Store) : Prop :=
  ∀ j < s.sb.nino, j ≠ (s.icache ip).inum → (dinode s.sb s.disk j).type ≠ T_FREE →
    NoHole s.disk (dinode s.sb s.disk j) → dinode s.sb s'.disk j = dinode s.sb s.disk j ∧
      content s'.disk (dinode s.sb s'.disk j) = content s.disk (dinode s.sb s.disk j)

/-- What `writei` has done is seen in memory and on the disk, and in no other file. -/
theorem writei_spec (h : Sound s) (hl : Live s ip) (hn : NoHole s.disk (s.icache ip).din)
    (ht : (s.icache ip).din.type ≠ T_DEV) (hop : 0 < s.outstanding) (off n : BitVec 32)
    (hlen : src.length = n.toNat) :
    wp (OutOfBlocks s (chunks off.toNat n.toNat + 1)) (writei ip src off.toNat).code (fun r s' =>
      (Fits32 (s.icache ip).din.size.toNat off n → r = some n.toNat ∧
        content s'.disk (s'.icache ip).din =
          patch (content s.disk (s.icache ip).din) off.toNat src ∧
        content s'.disk (dinode s.sb s'.disk (s.icache ip).inum) =
          patch (content s.disk (s.icache ip).din) off.toNat src ∧
        (s'.icache ip).din.size.toNat =
          max (s.icache ip).din.size.toNat (off.toNat + n.toNat) ∧ OthersKept ip s s') ∧
      (¬ Fits32 (s.icache ip).din.size.toNat off n → r = none ∧ s' = s)) s := by
  have hspec := writeFile_spec h hl hn hop off.toNat src
  rw [hlen] at hspec
  unfold wp at hspec ⊢
  rw [writei_file ht]
  refine Lib.wp_mono hspec fun r s' hr => ?_
  split_ifs at hr with hc
  · exact ⟨fun hf => absurd hc (fits32_iff.mp hf), fun _ => hr⟩
  · refine ⟨fun hf => ?_, fun hf => absurd (fits32_iff.mpr hc) hf⟩
    obtain ⟨hr, W⟩ := hr
    obtain ⟨size, addrs, hentry⟩ := W.entry
    have hi : (s'.icache ip).inum = (s.icache ip).inum := by rw [hentry]
    have hl' : 0 < (s'.icache ip).ref ∧ (s'.icache ip).valid = true := by
      rw [hentry]
      exact ⟨hl.ref, hl.valid⟩
    have hsize := W.sound.size ip hl'.1 hl'.2
    have haddrs := W.sound.addrs ip hl'.1 hl'.2
    rw [W.sb, hi] at hsize haddrs
    refine ⟨hr, W.content, ?_, ?_, fun j hj hne htj hnj => ⟨W.inodes j hj hne, ?_⟩⟩
    · rw [content_congr hsize.symm haddrs.symm, W.content]
    · have := congrArg List.length W.content
      rw [length_content, length_patch src (by rw [length_content]; omega), length_content,
        hlen] at this
      exact this
    · rw [W.inodes j hj hne]
      exact (W.files j hj hne htj).content hnj

/-- `readi` and `writei` implement a byte array. -/
theorem readi_writei_array (h : Sound s) (hl : Live s ip) (hn : NoHole s.disk (s.icache ip).din)
    (ht : (s.icache ip).din.type ≠ T_DEV) (hop : 0 < s.outstanding) (off n : BitVec 32)
    (src : List (BitVec 8)) (hlen : src.length = n.toNat) (input : Option (List (BitVec 8))) :
    let c := content s.disk (s.icache ip).din
    wp (OutOfBlocks s (chunks off.toNat n.toNat + 1)) (writei ip src off.toNat).code (fun r s' =>
      (r = some n.toNat ↔ Fits32 c.length off n) ∧
      (Fits32 c.length off n → content s'.disk (s'.icache ip).din = patch c off.toNat src ∧
        content s'.disk (dinode s.sb s'.disk (s.icache ip).inum) = patch c off.toNat src ∧
        (s'.icache ip).din.size.toNat = max c.length (off.toNat + n.toNat)) ∧
      (¬ Fits32 c.length off n → r = none ∧ s' = s) ∧ OthersKept ip s s') s ∧
    (off.toNat ≤ c.length → off.toNat + n.toNat < 2 ^ 32 →
      (readi ip off.toNat n.toNat input).code s = .ok (some ((c.drop off.toNat).take n.toNat), s) ∧
      ((c.drop off.toNat).take n.toNat).length = min n.toNat (c.length - off.toNat)) := by
  intro c
  have hc : c.length = (s.icache ip).din.size.toNat := length_content
  rw [hc]
  refine ⟨Lib.wp_mono (writei_spec h hl hn ht hop off n hlen) ?_, fun hoff hwrap => ⟨?_, ?_⟩⟩
  · rintro r s' ⟨hfit, hfar⟩
    by_cases hf : Fits32 (s.icache ip).din.size.toNat off n
    · obtain ⟨hr, h₁, h₂, h₃, h₄⟩ := hfit hf
      exact ⟨iff_of_true hr hf, fun _ => ⟨h₁, h₂, h₃⟩, fun hf' => absurd hf hf', h₄⟩
    · obtain ⟨hr, hs'⟩ := hfar hf
      refine ⟨iff_of_false (by rw [hr]; exact fun e => nomatch e) hf, fun hf' => absurd hf' hf,
        fun _ => ⟨hr, hs'⟩, ?_⟩
      rw [hs']
      exact fun j _ _ _ _ => ⟨rfl, rfl⟩
  · rw [readi_file ht, readFile_spec h hl hn, if_neg]
    unfold UINT
    omega
  · rw [List.length_take, List.length_drop, hc]

/-! ### A file system with one empty file -/

/-- An empty file with one link. -/
def emptyFile : Dinode := { Dinode.zero with type := T_FILE, nlink := 1 }

/-- Inode 1 is an empty file, and the blocks before the data area are in use. -/
def emptyDisk : Disk := fun b =>
  if b = 32 then putDinode (fun _ => 0) 1 emptyFile
  else if b = 58 then fun k => if k < 7 then 255 else if k = 7 then 7 else 0
  else fun _ => 0

/-- The file is locked, and a system call is in a transaction. -/
def emptyStore : Store where
  sb := .mkfs
  fssize := FSSIZE
  disk := emptyDisk
  icache ip := if ip.val = 0 then ⟨1, 1, true, true, emptyFile⟩ else ⟨0, 0, false, false, .zero⟩
  outstanding := 1
  logged := []
  allocs := 0
  readAllocs := 0
  stale := false

def ip0 : Ip := ⟨0, by decide⟩

theorem emptyDisk_dinode {i : ℕ} (hi : i < Superblock.mkfs.nino) :
    dinode .mkfs emptyDisk i = if i = 1 then emptyFile else .zero := by
  have hzero : ∀ k, getDinode (fun _ => 0) k = Dinode.zero := fun _ => rfl
  have hlt : IBLOCK i .mkfs < 58 := IBLOCK_lt hi
  unfold dinode emptyDisk
  by_cases hb : IBLOCK i .mkfs = 32
  · have hb' : i / 8 + 32 = 32 := hb
    rw [if_pos hb]
    by_cases e : i = 1
    · rw [if_pos e, e]
      exact getDinode_putDinode
    · rw [if_neg e, getDinode_putDinode_of_ne, hzero]
      show i % 8 ≠ 1
      omega
  · have hi : i ≠ 1 := fun e => hb (by rw [e]; rfl)
    rw [if_neg hb, if_neg (Nat.ne_of_lt hlt), if_neg hi, hzero]

theorem emptyDisk_inUse : ∀ b < 1000, inUse .mkfs emptyDisk b = decide (b < 59) := by decide +kernel

theorem emptyStore_entry {ip : Ip} (hr : 0 < (emptyStore.icache ip).ref) :
    ip = ip0 ∧ emptyStore.icache ip = ⟨1, 1, true, true, emptyFile⟩ := by
  have hc : emptyStore.icache ip =
      if ip.val = 0 then ⟨1, 1, true, true, emptyFile⟩ else ⟨0, 0, false, false, .zero⟩ := rfl
  rw [hc] at hr ⊢
  by_cases e : ip.val = 0
  · exact ⟨Fin.ext e, if_pos e⟩
  · rw [if_neg e] at hr
    exact absurd hr (Nat.lt_irrefl _)

theorem emptyStore_refs (x : ℕ × ℕ) : refs .mkfs (dinode .mkfs emptyDisk) emptyDisk x = 0 := by
  obtain ⟨i, k⟩ := x
  by_cases hi : i < Superblock.mkfs.nino
  · refine refs_bare ?_
    rw [emptyDisk_dinode hi]
    split_ifs
    · exact Or.inr rfl
    · exact Or.inl rfl
  · exact if_neg fun h => hi h.1

theorem emptyStore_sound : Sound emptyStore := by
  have hself : dinode .mkfs emptyDisk 1 = emptyFile := emptyDisk_dinode (by decide)
  refine ⟨layout_mkfs, ⟨⟨fun h => absurd (emptyStore_refs _) h, fun h => absurd (emptyStore_refs _) h,
    fun {b} _ ha hu => ?_⟩, fun b hb => ?_⟩, fun ip hr => ?_, fun ip jp hr hr' _ => ?_,
    fun ip hr _ => ?_, fun ip hr _ => ?_, fun ip hr _ ht => ?_⟩
  · have hu' : decide (b < 59) = true := (emptyDisk_inUse b ha.2).symm.trans hu
    have hlt : 59 ≤ b := ha.1
    exact absurd (of_decide_eq_true hu') (Nat.not_lt.mpr hlt)
  · have hlt : b < 59 := hb
    exact (emptyDisk_inUse b (by omega)).trans (decide_eq_true hlt)
  · rw [(emptyStore_entry hr).2]
    decide
  · rw [(emptyStore_entry hr).1, (emptyStore_entry hr').1]
  · rw [(emptyStore_entry hr).2]
    exact congrArg Dinode.size hself.symm
  · rw [(emptyStore_entry hr).2]
    exact congrArg Dinode.addrs hself.symm
  · rw [(emptyStore_entry hr).2] at ht
    exact absurd (congrArg Dinode.type hself.symm |>.trans ht) (by decide)

theorem emptyStore_live : Live emptyStore ip0 where
  ref := Nat.one_pos
  valid := rfl
  type := by decide
  disk := by
    have hself : dinode .mkfs emptyDisk 1 = emptyFile := emptyDisk_dinode (by decide)
    show (dinode .mkfs emptyDisk 1).type ≠ T_FREE
    rw [hself]
    decide

theorem emptyStore_noHole : NoHole emptyStore.disk (emptyStore.icache ip0).din :=
  fun _ h => absurd h (Nat.not_lt_zero _)

theorem emptyStore_nfree : nfree emptyStore.sb emptyStore.disk = 941 := by decide +kernel

theorem readi_writei_array_two :
    ∃ s', (writei ip0 [104, 105] 0).code emptyStore = .ok (some 2, s') ∧
      content s'.disk (s'.icache ip0).din = [104, 105] ∧
      (readi ip0 0 2 none).code emptyStore = .ok (some [], emptyStore) := by
  have hfit : Fits32 (content emptyStore.disk (emptyStore.icache ip0).din).length 0 2 := by
    rw [length_content]
    exact ⟨Nat.zero_le _, by decide, by decide⟩
  obtain ⟨hw, hr⟩ := readi_writei_array emptyStore_sound emptyStore_live emptyStore_noHole (by decide)
    Nat.one_pos 0 2 [104, 105] rfl none
  cases hx : (writei ip0 [104, 105] 0).code emptyStore with
  | error e =>
    have := (wp_error hw hx).2
    rw [emptyStore_nfree] at this
    exact absurd this (by decide)
  | ok p =>
    obtain ⟨hret, hcont, -⟩ := wp_ok hw hx
    obtain ⟨r, s'⟩ := p
    rw [show r = some 2 from hret.mpr hfit]
    exact ⟨s', rfl, (hcont hfit).1, (hr (Nat.zero_le _) (by decide)).1⟩

/-! ### A block with two owners -/

/-- Inodes 1 and 2 have the same block. -/
def sharedStore : Store :=
  let di : Dinode := { emptyFile with size := 1, addrs := fun k => if k.val = 0 then 100 else 0 }
  { emptyStore with
    disk := Function.update emptyDisk 32 (putDinode (putDinode (fun _ => 0) 1 di) 2 di)
    icache := fun ip => if ip.val = 0 then ⟨1, 1, true, true, di⟩ else ⟨0, 0, false, false, .zero⟩ }

/-- Writing to one of them changes the contents of the other. -/
theorem writei_shared :
    NoHole sharedStore.disk (sharedStore.icache ip0).din ∧
    0 < nfree sharedStore.sb sharedStore.disk ∧
    content sharedStore.disk (dinode .mkfs sharedStore.disk 2) = [0] ∧
    ∃ s', (writei ip0 [7] 0).code sharedStore = .ok (some 1, s') ∧
      content s'.disk (dinode .mkfs s'.disk 2) = [7] := by
  refine ⟨fun bn hbn => ?_, by decide +kernel, by decide +kernel, ?_⟩
  · have hbn' : bn * 512 < 1 := hbn
    rw [show bn = 0 by omega]
    decide +kernel
  · have hrun : ((writei ip0 [7] 0).code sharedStore).toOption.map
        (fun p => (p.1, content p.2.disk (dinode .mkfs p.2.disk 2))) = some (some 1, [7]) := by
      decide +kernel
    cases hx : (writei ip0 [7] 0).code sharedStore with
    | error e =>
      rw [hx] at hrun
      cases hrun
    | ok p =>
      rw [hx] at hrun
      obtain ⟨h₁, h₂⟩ := Prod.mk.inj (Option.some.inj hrun)
      exact ⟨p.2, by rw [← h₁], h₂⟩

/-! ## Transactions -/

/-- Code that passes nothing to `log_write`. -/
def Quiet (x : K α) : Prop :=
  ∀ s, wp (fun e => e.2.logged = s.logged) x (fun _ t => t.logged = s.logged) s

theorem quiet_pure (a : α) : Quiet (pure a) := fun _ => rfl

theorem quiet_bind {x : K α} {f : α → K β} (hx : Quiet x) (hf : ∀ a, Quiet (f a)) :
    Quiet (x >>= f) := by
  intro s
  rw [wp_bind]
  refine wp_mono (hx s) fun a t ht => ?_
  have := hf a t
  rwa [ht] at this

theorem quiet_ite {c : Prop} [Decidable c] {x y : K α} (hx : Quiet x) (hy : Quiet y) :
    Quiet (if c then x else y) := by
  split_ifs
  · exact hx
  · exact hy

theorem quiet_inode (ip : Ip) : Quiet (inode ip) := fun _ => rfl

theorem quiet_setInode (ip : Ip) (f : Fs.Inode → Fs.Inode) : Quiet (setInode ip f) := fun _ => rfl

theorem quiet_panic (e : Panic) : Quiet (Fs.panic e : K α) := fun _ => rfl

theorem quiet_acquire (ip : Ip) : Quiet (acquire ip) := by
  unfold acquire
  refine quiet_bind (quiet_inode ip) fun e => ?_
  dsimp only
  exact quiet_ite (quiet_bind (quiet_panic _) fun _ => quiet_setInode ip _) (quiet_setInode ip _)

theorem quiet_load (ip : Ip) : Quiet (load ip) := by
  have hbread : ∀ b, Quiet (bread b) := by
    intro b s
    unfold bread
    rw [wp_bind, wp_get]
    exact wp_ite (fun _ => rfl) fun _ => rfl
  unfold load
  refine quiet_bind (quiet_inode ip) fun e => quiet_ite ?_ (quiet_pure _)
  refine quiet_bind (fun _ => rfl) fun s => quiet_bind (hbread _) fun _ => ?_
  refine quiet_bind (quiet_setInode ip _) fun _ => quiet_bind (quiet_inode ip) fun _ => ?_
  exact quiet_ite (quiet_panic _) (quiet_pure _)

theorem code_ite {c : Prop} [Decidable c] (t u : T α) :
    T.code (if c then t else u) = if c then t.code else u.code := apply_ite _ _ _ _

theorem quiet_ilock (ip : Ip) : Quiet (ilock ip).code := by
  have hrest : Quiet (acquire ip >>= fun _ => load ip) :=
    quiet_bind (quiet_acquire ip) fun _ => quiet_load ip
  unfold ilock look panic
  simp only [code_bind, code_op, code_ite]
  refine quiet_bind (quiet_bind (quiet_inode ip) fun _ => quiet_pure _) fun e => quiet_ite ?_ hrest
  exact quiet_bind (quiet_panic _) fun _ => hrest

theorem quiet_iunlock (ip : Ip) : Quiet (iunlock ip).code := by
  have hrest : Quiet (release ip) := fun _ => rfl
  unfold iunlock look panic
  simp only [code_bind, code_op, code_ite]
  refine quiet_bind (quiet_bind (quiet_inode ip) fun _ => quiet_pure _) fun holding => ?_
  refine quiet_bind (quiet_bind (quiet_inode ip) fun _ => quiet_pure _) fun e => quiet_ite ?_ hrest
  exact quiet_bind (quiet_panic _) fun _ => hrest

/-- The console is no file: nothing goes through the log. -/
theorem quiet_console (ip : Ip) (r : α) : Quiet (console ip r).code := by
  unfold console
  rw [code_bind]
  refine quiet_bind (quiet_iunlock ip) fun _ => ?_
  rw [code_bind]
  exact quiet_bind (quiet_ilock ip) fun _ => quiet_pure r

/-- The number of different blocks that were passed to `log_write` since `s`. -/
def logCount (s s' : Store) : ℕ := ((s'.logged.drop s.logged.length).toFinset).card

theorem logCount_of_eq (h : s'.logged = s.logged) : logCount s s' = 0 := by
  unfold logCount
  rw [h, List.drop_length]
  rfl

/-- The `writei` of a chunk of `filewrite` fits into one transaction. -/
theorem writei_chunk_logs (h : Sound s) (hl : Live s ip) (hop : 0 < s.outstanding)
    (hn : NoHole s.disk (s.icache ip).din)
    (hlen : src.length ≤ ((MAXOPBLOCKS - 1 - 1 - 2) / 2) * 512) :
    wp (fun e => logCount s e.2 ≤ MAXOPBLOCKS) (writei ip src off).code
      (fun _ s' => logCount s s' ≤ MAXOPBLOCKS) s := by
  by_cases ht : (s.icache ip).din.type = T_DEV
  · have hquiet : ∀ (t : T (Option ℕ)), Quiet t.code → wp (fun e => logCount s e.2 ≤ MAXOPBLOCKS)
        t.code (fun _ s' => logCount s s' ≤ MAXOPBLOCKS) s := by
      intro t hq
      refine wp_weaken (wp_mono (hq s) fun _ s' hs' => ?_) fun e he => ?_
      · rw [logCount_of_eq hs']
        exact Nat.zero_le _
      · rw [logCount_of_eq he]
        exact Nat.zero_le _
    unfold writei look
    rw [code_bind, code_op, wp_bind]
    show wp _ (T.code (if (s.icache ip).din.type = T_DEV then _ else _)) _ s
    rw [if_pos ht]
    refine hquiet _ ?_
    rw [code_ite]
    exact quiet_ite (quiet_console ip _) (quiet_pure _)
  · unfold wp
    rw [writei_file ht]
    refine wp_weaken (wp_mono (writeFile_logs (h.editing hl hop) hn hlen) ?_) ?_
    · rintro r s' ⟨B, hB, hlogs⟩
      exact Nat.le_trans hlogs.card_le hB
    · rintro e ⟨B, hB, hlogs⟩
      exact Nat.le_trans hlogs.card_le hB

theorem writei_chunk_logs_empty :
    wp (fun e => logCount emptyStore e.2 ≤ MAXOPBLOCKS) (writei ip0 [104, 105] 0).code
      (fun _ s' => logCount emptyStore s' ≤ MAXOPBLOCKS) emptyStore :=
  writei_chunk_logs emptyStore_sound emptyStore_live Nat.one_pos emptyStore_noHole (by decide)

/-- Four blocks of the free map, in which few blocks are free: the boot block, block 1, and the first
block of each of the other parts. The file has twelve blocks, the last of which is not full. -/
def freeBoot : Store where
  sb := ⟨16384, 16377, 8, 0, 2, 2, 3⟩
  fssize := 16384
  disk b k := if k = 0 then if b = 3 then 252 else 254 else 255
  icache _ := ⟨1, 1, true, true, { emptyFile with
    size := 5732, addrs := fun k => if k.val < 12 then BitVec.ofNat 32 (7 + k.val) else 0 }⟩
  outstanding := 1
  logged := []
  allocs := 0
  readAllocs := 0
  stale := false

/-- The indirect block is allocated as block 0, which is none, and so a second time. -/
theorem writei_freeBoot_logs :
    NoHole freeBoot.disk (freeBoot.icache ip0).din ∧
    ∃ s', (writei ip0 (List.replicate 1536 0) 5732).code freeBoot = .ok (some 1536, s') ∧
      logCount freeBoot s' = MAXOPBLOCKS + 1 := by
  have hblk : ∀ bn < 12, blockAt freeBoot.disk (freeBoot.icache ip0).din bn ≠ 0 := by decide +kernel
  refine ⟨fun bn hbn => hblk bn ?_, ?_⟩
  · have hbn' : bn * 512 < 5732 := hbn
    omega
  · have hrun : (writeFile ip0 (List.replicate 1536 0) 5732 freeBoot).toOption.map
        (fun p => (p.1, p.2.logged.dedup.length)) = some (some 1536, 11) := by
      decide +kernel
    rw [writei_file (by decide)]
    cases hx : writeFile ip0 (List.replicate 1536 0) 5732 freeBoot with
    | error e =>
      rw [hx] at hrun
      cases hrun
    | ok p =>
      rw [hx] at hrun
      obtain ⟨h₁, h₂⟩ := Prod.mk.inj (Option.some.inj hrun)
      refine ⟨p.2, by rw [← h₁], ?_⟩
      unfold logCount
      rw [List.card_toFinset]
      exact h₂

end DuckoUnix.Inode
