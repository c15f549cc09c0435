import DuckoUnix.Inode.Alone
import DuckoUnix.Inode.ReadWrite
import DuckoUnix.Mkfs.Regions

/-!
# The kernel reads the image

`mkfs` and the kernel have separate code for inodes, for the blocks of a file, for directory entries
and for the free map. On an image that `mkfs` has finished, the kernel finds the super block that
`mkfs` wrote, `dirlookup` finds every file of the command line in the root directory, and `readi`
returns what `mkfs` read from it.
-/

namespace DuckoUnix.Mkfs

open Lib Fs Inode

variable {s : Image} {t t' : Store} {ip dp : Ip} {files : List Input} {f : Input} {j m n off : ℕ}
  {di : Dinode} {c : List (BitVec 8)}

/-! ## Reading files -/

/-- The kernel has the image as its disk and has not written to it. -/
structure Mounted (s : Image) (t : Store) : Prop where
  sb : t.sb = .mkfs
  fssize : t.fssize = FSSIZE
  disk : t.disk = s.img
  copy : ∀ ip, 0 < (t.icache ip).ref → (t.icache ip).valid = true →
    (t.icache ip).din = dinode .mkfs s.img (t.icache ip).inum

theorem Mounted.onDisk (h : Mounted s t) (hown : Owned .mkfs (dinode .mkfs s.img) s.img)
    (hi : (t.icache ip).inum < Superblock.mkfs.nino)
    (hdin : (t.icache ip).din = dinode .mkfs s.img (t.icache ip).inum)
    (ht : (t.icache ip).din.type ≠ T_FREE) : OnDisk t ip := by
  have hed : Editing { t with outstanding := 1 } ip := by
    refine ⟨?_, ?_, ?_, ht, Nat.one_pos⟩
    · show Layout t.sb t.fssize
      rw [h.sb, h.fssize]
      exact layout_mkfs
    · show Owned t.sb (Function.update (dinode t.sb t.disk) _ (t.icache ip).din) t.disk
      rw [h.sb, h.disk, hdin, Function.update_eq_self]
      exact hown
    · show (t.icache ip).inum < t.sb.nino
      rw [h.sb]
      exact hi
  exact ⟨hed.onDisk.indirect, hed.onDisk.blk⟩

theorem Mounted.readi (h : Mounted s t) (hown : Owned .mkfs (dinode .mkfs s.img) s.img)
    (hi : (t.icache ip).inum < Superblock.mkfs.nino)
    (hdin : (t.icache ip).din = dinode .mkfs s.img (t.icache ip).inum)
    (ht : (t.icache ip).din.type = T_FILE)
    (hc : Holds s.img (dinode .mkfs s.img (t.icache ip).inum) c)
    (input : Option (List (BitVec 8))) (hoff : off < UINT) (hn : n < UINT) :
    (readi ip off n input).code t = .ok (if c.length < off ∨ UINT ≤ off + n then none
      else some ((c.drop off).take n), t) := by
  have hd := h.onDisk hown hi hdin (by rw [ht]; decide)
  rw [← hdin, ← h.disk] at hc
  rw [readi_file (by rw [ht]; decide), readFile_range hd off n fun o _ _ ho => hc.noHole.blk ho,
    hc.content, hc.size]
  have hwrap : (off + n) % UINT < off ↔ UINT ≤ off + n := by
    unfold UINT at *
    omega
  simp only [hwrap]

/-! ## The entries of the root directory -/

/-- The names in the root directory, with the numbers of their inodes. -/
def numbered : ℕ → List Input → List (ℕ × List (BitVec 8))
  | _, [] => []
  | i, f :: files => (i, f.stored) :: numbered (i + 1) files

def rootNames (files : List Input) : List (ℕ × List (BitVec 8)) :=
  (ROOTINO, [46]) :: (ROOTINO, [46, 46]) :: numbered 2 files

def bytesOf (N : List (ℕ × List (BitVec 8))) : List (BitVec 8) := N.flatMap fun x => entry x.1 x.2

theorem entries_eq {i : ℕ} : entries i files = bytesOf (numbered i files) := by
  induction files generalizing i with
  | nil => rfl
  | cons f files ih =>
    unfold entries
    rw [ih]
    rfl

theorem rootData_eq : rootData files = bytesOf (rootNames files) := by
  unfold rootData
  rw [entries_eq, List.append_assoc]
  rfl

theorem numbered_length {i : ℕ} : (numbered i files).length = files.length := by
  induction files generalizing i with
  | nil => rfl
  | cons f files ih => rw [numbered, List.length_cons, ih, List.length_cons]

theorem rootNames_length : (rootNames files).length = files.length + 2 := by
  unfold rootNames
  rw [List.length_cons, List.length_cons, numbered_length]

theorem numbered_getElem? {i : ℕ} :
    (numbered i files)[j]? = files[j]?.map fun f => (i + j, f.stored) := by
  induction files generalizing i j with
  | nil => rfl
  | cons f files ih =>
    cases j with
    | zero => rfl
    | succ j =>
      rw [numbered, List.getElem?_cons_succ, List.getElem?_cons_succ, ih, Nat.add_assoc,
        Nat.add_comm 1]

theorem slice_bytesOf {N : List (ℕ × List (BitVec 8))} {x : ℕ × List (BitVec 8)}
    (hx : N[m]? = some x) : ((bytesOf N).drop (m * DIRENT)).take DIRENT = entry x.1 x.2 := by
  induction N generalizing m with
  | nil => cases hx
  | cons y N ih =>
    have hcons : bytesOf (y :: N) = entry y.1 y.2 ++ bytesOf N := rfl
    have hlen : (entry y.1 y.2).length = DIRENT := entry_length
    cases m with
    | zero =>
      cases hx
      rw [hcons, Nat.zero_mul, List.drop_zero, List.take_append_of_le_length (Nat.le_of_eq hlen.symm),
        ← hlen, List.take_length]
    | succ m =>
      rw [List.getElem?_cons_succ] at hx
      rw [hcons, Nat.add_mul, Nat.one_mul, Nat.add_comm, ← List.drop_drop, ← hlen,
        List.drop_left, hlen, ih hx]

/-! ## `dirlookup` -/

/-- The kernel has the root directory in place `dp`. -/
structure RootAt (t : Store) (dp : Ip) : Prop where
  ref : 0 < (t.icache dp).ref
  valid : (t.icache dp).valid = true
  inum : (t.icache dp).inum = ROOTINO

theorem readDirent_eq {bs : List (BitVec 8)} {e : Panic}
    (h : (readi dp off DIRENT none).code t = .ok (some bs, t)) (hlen : bs.length = DIRENT) :
    (readDirent dp off e).code t = .ok (getDirent bs, t) := by
  unfold readDirent
  rw [code_bind_ok h]
  show T.code (if bs.length ≠ DIRENT then Inode.panic e else pure (getDirent bs)) t = _
  rw [if_neg (not_not.mpr hlen)]
  rfl

theorem Holds.slice {d d' : Disk} {di' : Dinode} (hc : Holds d di c) (hsize : c.length ≤ di'.size.toNat)
    (hbyte : ∀ o, byteAt d' di' o = byteAt d di o) (h : off + n ≤ c.length) :
    ((Fs.content d' di').drop off).take n = (c.drop off).take n := by
  refine List.ext_getElem ?_ fun i h₁ h₂ => ?_
  · rw [List.length_take, List.length_take, List.length_drop, List.length_drop, length_content]
    omega
  · rw [List.getElem_take, List.getElem_take, List.getElem_drop, List.getElem_drop,
      getElem_content, hbyte]
    have hi : off + i < di.size.toNat := by
      rw [List.length_take] at h₁
      rw [hc.size]
      omega
    have hget : (c)[off + i]? = some (byteAt d di (off + i)) := by
      rw [← hc.content]
      unfold Fs.content
      rw [List.getElem?_map, List.getElem?_range hi]
      rfl
    exact (List.getElem?_eq_some_iff.mp hget).2.symm

theorem Formatted.readDirent {x : ℕ × List (BitVec 8)} {e : Panic} (h : Formatted files s)
    (hn : files.length ≤ 206) (hm : Mounted s t) (hr : RootAt t dp)
    (hx : (rootNames files)[m]? = some x) : (readDirent dp (m * DIRENT) e).code t =
      .ok (⟨BitVec.ofNat 16 x.1, strncpy x.2 DIRSIZ⟩, t) := by
  obtain ⟨di, hattr, hc, hroot⟩ := h.root
  have hlt : m < files.length + 2 := by
    rw [← rootNames_length]
    exact (List.getElem?_eq_some_iff.mp hx).1
  have hlen : (rootData files).length = (files.length + 2) * DIRENT := rootData_length
  have hoff : m * DIRENT + DIRENT ≤ (rootData files).length := by
    rw [hlen]
    unfold DIRENT
    omega
  have hdin : (t.icache dp).din = dinode .mkfs s.img (t.icache dp).inum := hm.copy dp hr.ref hr.valid
  have hdin' : (t.icache dp).din = { di with size := BitVec.ofNat 32 (rootSize files) } := by
    rw [hdin, hr.inum, hroot]
  have htype : (t.icache dp).din.type = T_DIR := by
    rw [hdin']
    exact congrArg Attr.type hattr
  have hsize : (rootData files).length ≤ (t.icache dp).din.size.toNat := by
    rw [hdin', hlen]
    show _ ≤ (BitVec.ofNat 32 (rootSize files)).toNat
    rw [rootSize_toNat hn]
    unfold DIRENT
    omega
  have hd := hm.onDisk h.own (by rw [hr.inum]; decide) hdin (by rw [htype]; decide)
  have hblk : ∀ bn, t.blk dp bn = blockAt s.img di bn := by
    intro bn
    unfold Store.blk
    rw [hdin', hm.disk]
    exact blockAt_congr rfl
  have hbyte : ∀ o, byteAt t.disk (t.icache dp).din o = byteAt s.img di o := by
    intro o
    show t.disk (t.blk dp (o / BSIZE)) _ = _
    rw [hblk, hm.disk]
    rfl
  have hread : (Inode.readi dp (m * DIRENT) DIRENT none).code t =
      .ok (some (entry x.1 x.2), t) := by
    rw [readi_file (by rw [htype]; decide), readFile_range hd _ _ fun o _ ho _ => ?_, if_neg ?_,
      hc.slice hsize hbyte hoff, rootData_eq, slice_bytesOf hx]
    · unfold UINT DIRENT at *
      omega
    · rw [hblk]
      exact hc.noHole.blk (by rw [hc.size]; omega)
  rw [readDirent_eq hread entry_length]
  unfold entry
  rw [getDirent_bytes]

/-- `dirlookup` goes past the entries with other names and stops at the first one with the name. -/
theorem dirlookupLoop_found {N : List (ℕ × List (BitVec 8))} {name : List (BitVec 8)}
    {x : ℕ × List (BitVec 8)} (hx : N[j]? = some x)
    (hread : ∀ m y, N[m]? = some y → (readDirent dp (m * DIRENT) .dirlookupRead).code t =
      .ok (⟨BitVec.ofNat 16 y.1, strncpy y.2 DIRSIZ⟩, t))
    (hsize : N.length * DIRENT ≤ (t.icache dp).din.size.toNat)
    (hinum : ∀ y ∈ N, 0 < y.1 ∧ y.1 < 2 ^ 16) (hname : nameOf x.2 = nameOf name)
    (hother : ∀ m y, m < j → N[m]? = some y → nameOf y.2 ≠ nameOf name) {k : ℕ} (hm : m ≤ j)
    (hk : j < m + k) : (dirlookupLoop dp name k (m * DIRENT)).code t =
      T.code (do return some (← iget x.1, j * DIRENT)) t := by
  induction k generalizing m with
  | zero => omega
  | succ k ih =>
    have hj := (List.getElem?_eq_some_iff.mp hx).1
    have hmlt : m < N.length := by omega
    obtain ⟨y, hy⟩ : ∃ y, N[m]? = some y := ⟨_, List.getElem?_eq_getElem hmlt⟩
    have hlt : m * DIRENT < (t.icache dp).din.size.toNat := by
      unfold DIRENT at *
      omega
    have hpos := hinum y (List.mem_of_getElem? hy)
    have hnat : (BitVec.ofNat 16 y.1).toNat = y.1 := by
      rw [BitVec.toNat_ofNat]
      exact Nat.mod_eq_of_lt hpos.2
    have hne : BitVec.ofNat 16 y.1 ≠ 0 := by
      intro e
      rw [e] at hnat
      exact absurd hnat (Nat.ne_of_lt hpos.1)
    have hcmp : namecmp name (strncpy y.2 DIRSIZ) = 0 ↔ nameOf y.2 = nameOf name := by
      rw [namecmp_eq_zero, show nameOf (strncpy y.2 DIRSIZ) = nameOf y.2 from cut_strncpy]
      exact eq_comm
    unfold dirlookupLoop
    have hsz : (Inode.size dp).code t = .ok ((t.icache dp).din.size.toNat, t) := by
      unfold Inode.size
      rw [code_op]
      rfl
    rw [code_bind_ok hsz, if_pos hlt, code_bind_ok (hread m y hy)]
    dsimp only
    by_cases hmj : m = j
    · subst hmj
      have hxy : y = x := Option.some.inj (hy.symm.trans hx)
      subst hxy
      rw [if_pos ⟨hne, hcmp.mpr hname⟩, hnat]
    · have hskip : m * DIRENT + DIRENT = (m + 1) * DIRENT := by
        rw [Nat.add_mul, Nat.one_mul]
      rw [if_neg fun hc => hother m y (by omega) hy (hcmp.mp hc.2), hskip]
      exact ih (by omega) (by omega)

/-- The kernel has room for another inode in its cache. -/
def HasPlace (t : Store) (inum : ℕ) : Prop :=
  (cached t inum).isSome = true ∨ (Fs.empty t).isSome = true

theorem cached_spec {inum : ℕ} (h : cached t inum = some ip) :
    0 < (t.icache ip).ref ∧ (t.icache ip).inum = inum := by
  have := List.find?_some h
  simpa using this

theorem Mounted.put {e : Fs.Inode} (h : Mounted s t)
    (he : 0 < e.ref → e.valid = true → e.din = dinode .mkfs s.img e.inum) :
    Mounted s (t.put ip e) := by
  refine ⟨h.sb, h.fssize, h.disk, fun jp hr hv => ?_⟩
  by_cases hj : jp = ip
  · subst hj
    rw [put_self] at hr hv ⊢
    exact he hr hv
  · rw [put_of_ne hj] at hr hv ⊢
    exact h.copy jp hr hv

theorem Mounted.iget {inum : ℕ} (h : Mounted s t) (hplace : HasPlace t inum) :
    ∃ ip t', Fs.iget inum t = .ok (ip, t') ∧ (t'.icache ip).inum = inum ∧
      0 < (t'.icache ip).ref ∧ Mounted s t' := by
  rw [iget_eq]
  cases hc : cached t inum with
  | some ip =>
    obtain ⟨href, hinum⟩ := cached_spec hc
    refine ⟨ip, _, rfl, ?_, ?_, h.put fun _ hv => h.copy ip href hv⟩
    · rw [put_self]
      exact hinum
    · rw [put_self]
      exact Nat.succ_pos _
  | none =>
    cases he : Fs.empty t with
    | none =>
      unfold HasPlace at hplace
      rw [hc, he] at hplace
      exact absurd hplace (by decide)
    | some ip =>
      refine ⟨ip, _, rfl, ?_, ?_, h.put fun _ hv => nomatch hv⟩
      · rw [put_self]
      · rw [put_self]
        exact Nat.one_pos

theorem Mounted.load (h : Mounted s t) (href : 0 < (t.icache ip).ref)
    (hi : (t.icache ip).inum < Superblock.mkfs.nino)
    (ht : (dinode .mkfs s.img (t.icache ip).inum).type ≠ T_FREE) :
    ∃ t', load ip t = .ok ((), t') ∧ Mounted s t' ∧ (t'.icache ip).inum = (t.icache ip).inum ∧
      (t'.icache ip).din = dinode .mkfs s.img (t.icache ip).inum := by
  by_cases hv : (t.icache ip).valid = false
  · have hb : IBLOCK (t.icache ip).inum t.sb < t.fssize := by
      rw [h.sb, h.fssize]
      exact layout_mkfs.IBLOCK_lt_fssize hi
    rw [load_of_invalid hv hb rfl, h.sb, h.disk, if_neg ht]
    refine ⟨_, rfl, h.put fun _ _ => rfl, ?_, ?_⟩
    · rw [put_self]
    · rw [put_self]
  · have hspec : wp (fun _ => False) (Fs.load ip) (fun _ t' => t' = t) t := by
      unfold Fs.load
      rw [wp_bind, wp_inode, if_neg hv]
      rfl
    obtain ⟨_, t', hload, rfl⟩ := wp_returns hspec
    exact ⟨t', hload, h, rfl, h.copy ip href (by simpa using hv)⟩

theorem Mounted.ilock (h : Mounted s t) (href : 0 < (t.icache ip).ref)
    (hfree : (t.icache ip).locked = false) (hi : (t.icache ip).inum < Superblock.mkfs.nino)
    (ht : (dinode .mkfs s.img (t.icache ip).inum).type ≠ T_FREE) :
    ∃ t', (ilock ip).code t = .ok ((), t') ∧ Mounted s t' ∧ (t'.icache ip).inum = (t.icache ip).inum ∧
      (t'.icache ip).din = dinode .mkfs s.img (t.icache ip).inum := by
  obtain ⟨u, hu⟩ : ∃ u, u = t.put ip { t.icache ip with locked := true } := ⟨_, rfl⟩
  have hself : u.icache ip = { t.icache ip with locked := true } := by
    rw [hu, put_self]
  have hmount : Mounted s u := by
    rw [hu]
    exact h.put fun _ hv => h.copy ip href hv
  obtain ⟨t', hload, hpost⟩ := hmount.load (by rw [hself]; exact href) (by rw [hself]; exact hi)
    (by rw [hself]; exact ht)
  rw [hself] at hpost
  have hspec : wp (fun _ => False) (T.code (Inode.ilock ip)) (fun _ v => v = t') t := by
    unfold Inode.ilock look
    rw [code_bind, code_op, wp_bind]
    show wp _ (T.code (if (t.icache ip).ref < 1 then _ else _)) _ t
    rw [if_neg (by omega), code_bind, code_op, wp_bind]
    show wp _ (acquire ip) _ t
    unfold acquire
    rw [wp_bind, wp_inode, hfree, if_neg Bool.false_ne_true, wp_setInode, ← hu, code_op]
    show wp _ (Fs.load ip) _ u
    unfold wp
    rw [hload]
  obtain ⟨_, v, hv, rfl⟩ := wp_returns hspec
  exact ⟨v, hv, hpost⟩

/-! ## The image as a whole -/

def readsb (d : Disk) : Superblock where
  size := getLE (d 1) 0 4
  nblocks := getLE (d 1) 4 4
  ninodes := getLE (d 1) 8 4
  nlog := getLE (d 1) 12 4
  logstart := getLE (d 1) 16 4
  inodestart := getLE (d 1) 20 4
  bmapstart := getLE (d 1) 24 4

theorem readsb_eq {d : Disk} (h : d 1 = sbBytes .mkfs) : readsb d = .mkfs := by
  unfold readsb
  rw [h]
  decide

theorem Input.stored_noNul (f : Input) : 0 ∉ f.stored := by
  unfold Input.stored
  split_ifs
  · exact fun h => f.noNul (List.mem_of_mem_tail h)
  · exact f.noNul

theorem nameOf_eq {name : List (BitVec 8)} (h0 : 0 ∉ name) (hlen : name.length ≤ DIRSIZ) :
    nameOf name = name := by
  unfold nameOf cut
  rw [List.take_of_length_le hlen, List.takeWhile_eq_self_iff]
  intro c hc
  exact decide_eq_true fun e => h0 (e ▸ hc)

theorem rootNames_file (j : ℕ) :
    (rootNames files)[j + 2]? = files[j]?.map fun f => (j + 2, f.stored) := by
  unfold rootNames
  rw [List.getElem?_cons_succ, List.getElem?_cons_succ, numbered_getElem?, Nat.add_comm 2]

theorem rootNames_cases {x : ℕ × List (BitVec 8)} (hx : (rootNames files)[m]? = some x) :
    (x.1 = ROOTINO ∧ (x.2 = [46] ∨ x.2 = [46, 46])) ∨
      ∃ j f, m = j + 2 ∧ files[j]? = some f ∧ x = (j + 2, f.stored) := by
  match m with
  | 0 =>
    cases hx
    exact Or.inl ⟨rfl, Or.inl rfl⟩
  | 1 =>
    cases hx
    exact Or.inl ⟨rfl, Or.inr rfl⟩
  | j + 2 =>
    rw [rootNames_file, Option.map_eq_some_iff] at hx
    obtain ⟨f, hf, rfl⟩ := hx
    exact Or.inr ⟨j, f, rfl, hf, rfl⟩

section Names

variable (hn : files.length ≤ NINODES - 2) (hdistinct : (files.map Input.stored).Nodup)
  (hname : ∀ f ∈ files, f.stored.length ≤ DIRSIZ ∧ f.stored ≠ [46] ∧ f.stored ≠ [46, 46])

include hn in
theorem rootNames_inum : ∀ x ∈ rootNames files, 0 < x.1 ∧ x.1 < 2 ^ 16 := by
  intro x hx
  obtain ⟨m, hm⟩ := List.getElem?_of_mem hx
  rcases rootNames_cases hm with ⟨hroot, -⟩ | ⟨j, f, -, hf, rfl⟩
  · rw [hroot]
    decide
  · have hj := (List.getElem?_eq_some_iff.mp hf).1
    have hn : files.length ≤ 198 := hn
    exact ⟨Nat.succ_pos _, by dsimp only; omega⟩

include hdistinct hname in
theorem rootNames_other {x : ℕ × List (BitVec 8)} (hf : files[j]? = some f) (hm : m < j + 2)
    (hx : (rootNames files)[m]? = some x) : nameOf x.2 ≠ nameOf f.stored := by
  have hmem : f ∈ files := List.mem_of_getElem? hf
  obtain ⟨hlen, hdot, hdots⟩ := hname f hmem
  rw [nameOf_eq f.stored_noNul hlen]
  rcases rootNames_cases hx with ⟨-, h | h⟩ | ⟨i, g, rfl, hg, rfl⟩
  · rw [h]
    exact hdot.symm
  · rw [h]
    exact hdots.symm
  · have hgmem : g ∈ files := List.mem_of_getElem? hg
    rw [nameOf_eq g.stored_noNul (hname g hgmem).1]
    intro e
    have hi : i < files.length := (List.getElem?_eq_some_iff.mp hg).1
    have heq : (files.map Input.stored)[i]? = (files.map Input.stored)[j]? := by
      rw [List.getElem?_map, List.getElem?_map, hf, hg]
      exact congrArg some e
    have := (List.getElem?_inj (by rw [List.length_map]; exact hi) hdistinct).mp heq
    omega

include hn hdistinct hname in
theorem Formatted.dirlookup (h : Formatted files s) (hm : Mounted s t) (hr : RootAt t dp)
    (hf : files[j]? = some f) (hplace : HasPlace t (j + 2)) :
    ∃ ip t', (dirlookup dp f.stored).code t = .ok (some (ip, (j + 2) * DIRENT), t') ∧
      (t'.icache ip).inum = j + 2 ∧ 0 < (t'.icache ip).ref ∧ Mounted s t' := by
  have hn' : files.length ≤ 206 := by
    have hn : files.length ≤ 198 := hn
    omega
  obtain ⟨di, hattr, -, hroot⟩ := h.root
  have hdin : (t.icache dp).din = { di with size := BitVec.ofNat 32 (rootSize files) } := by
    rw [hm.copy dp hr.ref hr.valid, hr.inum, hroot]
  have htype : (t.icache dp).din.type = T_DIR := by
    rw [hdin]
    exact congrArg Attr.type hattr
  have hsize : (t.icache dp).din.size.toNat = ((files.length + 2) * 16 / 512 + 1) * 512 := by
    rw [hdin]
    exact rootSize_toNat hn'
  have hx : (rootNames files)[j + 2]? = some (j + 2, f.stored) := by
    rw [rootNames_file, hf]
    rfl
  have hj : j < files.length := (List.getElem?_eq_some_iff.mp hf).1
  have hfuel : j + 2 < 0 + ((t.icache dp).din.size.toNat / DIRENT + 1) := by
    rw [hsize]
    unfold DIRENT
    omega
  have hloop := dirlookupLoop_found hx (fun m y hy => h.readDirent hn' hm hr hy) (by
      rw [hsize, rootNames_length]
      unfold DIRENT
      omega) (rootNames_inum hn) rfl
    (fun m y hlt hy => rootNames_other hdistinct hname hf hlt hy) (Nat.zero_le _) hfuel
  obtain ⟨ip, t', hget, hinum, href, hm'⟩ := hm.iget hplace
  refine ⟨ip, t', ?_, hinum, href, hm'⟩
  have hlook : (look dp).code t = .ok (⟨(t.icache dp).inum, (t.icache dp).ref,
      (t.icache dp).valid, (t.icache dp).din.attr⟩, t) := by
    unfold look
    rw [code_op]
    rfl
  have hsz : (Inode.size dp).code t = .ok ((t.icache dp).din.size.toNat, t) := by
    unfold Inode.size
    rw [code_op]
    rfl
  have higet : (Inode.iget (j + 2)).code t = .ok (ip, t') := by
    unfold Inode.iget
    rw [code_op]
    exact hget
  unfold Inode.dirlookup
  rw [code_bind_ok hlook]
  show T.code (if (t.icache dp).din.type ≠ T_DIR then _ else _) t = _
  rw [if_neg (not_not.mpr htype), code_bind_ok hsz]
  rw [Nat.zero_mul] at hloop
  rw [hloop, code_bind_ok higet]
  rfl

end Names

/-- `mkfs` and the kernel agree on the format: the kernel finds the super block, `dirlookup` finds each
file, `readi` returns its contents, no block belongs to two files, and the map has the blocks that
are in use. -/
theorem kernel_reads_image (h : mkfs files start = .ok ((), s)) (hn : files.length ≤ NINODES - 2)
    (hdistinct : (files.map Input.stored).Nodup)
    (hname : ∀ f ∈ files, f.stored.length ≤ DIRSIZ ∧ f.stored ≠ [46] ∧ f.stored ≠ [46, 46]) :
    readsb s.img = .mkfs ∧
    (∀ t dp j f, Mounted s t → RootAt t dp → files[j]? = some f → HasPlace t (j + 2) →
      ∃ ip t', (dirlookup dp f.stored).code t = .ok (some (ip, (j + 2) * DIRENT), t') ∧
        (t'.icache ip).inum = j + 2 ∧ 0 < (t'.icache ip).ref ∧ Mounted s t') ∧
    (∀ t ip j f, Mounted s t → files[j]? = some f → (t.icache ip).inum = j + 2 →
      0 < (t.icache ip).ref → (t.icache ip).locked = false →
      ∃ t', (ilock ip).code t = .ok ((), t') ∧ Mounted s t' ∧
        ∀ off n input, off < UINT → n < UINT → (readi ip off n input).code t' =
          .ok (if f.data.length < off ∨ UINT ≤ off + n then none
            else some ((f.data.drop off).take n), t')) ∧
    (∀ x y, refs .mkfs (dinode .mkfs s.img) s.img x ≠ 0 →
      refs .mkfs (dinode .mkfs s.img) s.img y = refs .mkfs (dinode .mkfs s.img) s.img x → y = x) ∧
    ∀ b < FSSIZE, inUse .mkfs s.img b = true ↔
      b < nmeta ∨ ∃ x, refs .mkfs (dinode .mkfs s.img) s.img x = b := by
  have hn' : files.length ≤ 198 := hn
  have hform : Formatted files s := formatted_of_ok rfl h (by omega)
  refine ⟨readsb_eq hform.super, fun t dp j f hm hr hf hp => ?_, fun t ip j f hm hf hi href hfree => ?_,
    fun x y hx hy => hform.own.exact.inj hx hy, fun b hb => ⟨fun huse => ?_, fun hb' => ?_⟩⟩
  · exact hform.dirlookup hn hdistinct hname hm hr hf hp
  · have hj : j < files.length := (List.getElem?_eq_some_iff.mp hf).1
    have hlt : j + 2 < Superblock.mkfs.nino := by
      show j + 2 < 208
      omega
    have hnode := hform.node (j + 2) hlt (by unfold ROOTINO; omega)
    rw [node_file, hf] at hnode
    obtain ⟨hattr, htype, hc⟩ := hnode
    have ht : (dinode .mkfs s.img (j + 2)).type = T_FILE := congrArg Attr.type hattr
    obtain ⟨t', hlock, hm', hinum, hdin⟩ := hm.ilock href hfree (by rw [hi]; exact hlt)
      (by rw [hi, ht]; decide)
    rw [hi] at hinum hdin
    refine ⟨t', hlock, hm', fun off n input hoff hn => ?_⟩
    exact hm'.readi hform.own (by rw [hinum]; exact hlt) (by rw [hinum, hdin])
      (by rw [hdin, ht]) (by rw [hinum]; exact hc) input hoff hn
  · by_cases hlow : b < nmeta
    · exact Or.inl hlow
    · have hdata : Data .mkfs b := ⟨Nat.le_of_not_lt hlow, hb⟩
      exact Or.inr (hform.own.exact.owned (layout_mkfs.ne_zero hdata) hdata huse)
  · by_cases hlow : b < nmeta
    · exact hform.own.area b hlow
    · obtain ⟨x, hx⟩ := hb'.resolve_left hlow
      have hne : refs .mkfs (dinode .mkfs s.img) s.img x ≠ 0 := by
        rw [hx]
        rintro rfl
        exact hlow (by decide)
      have huse := (hform.own.exact.marked hne).2
      rwa [hx] at huse

/-- The file `_a` with three bytes, read in two pieces. -/
def shortFile : Input := ⟨[95, 97], by decide, some [[1, 2], [3]]⟩

/-- The kernel with the root directory in its cache. -/
def mounted (s : Image) : Store :=
  (Store.boot .mkfs FSSIZE s.img).put ip0 ⟨ROOTINO, 1, true, true, dinode .mkfs s.img ROOTINO⟩

theorem mounted_mounted : Mounted s (mounted s) := by
  have hboot : Mounted s (Store.boot .mkfs FSSIZE s.img) :=
    ⟨rfl, rfl, rfl, fun _ hr => absurd hr (Nat.lt_irrefl 0)⟩
  exact hboot.put fun _ _ => rfl

theorem mounted_rootAt : RootAt (mounted s) ip0 := by
  unfold mounted
  refine ⟨?_, ?_, ?_⟩ <;> rw [put_self]
  exact Nat.one_pos

theorem mounted_hasPlace : HasPlace (mounted s) 2 := by
  refine Or.inr (List.find?_isSome.mpr ⟨⟨1, by decide⟩, List.mem_finRange _, ?_⟩)
  exact decide_eq_true rfl

/-- The name `a` is found as the third entry of the root directory. -/
theorem kernel_reads_short : ∃ s ip t', mkfs [shortFile] start = .ok ((), s) ∧
    (dirlookup ip0 [97]).code (mounted s) = .ok (some (ip, 32), t') ∧
    (t'.icache ip).inum = 2 := by
  have hgood : ∀ f ∈ [shortFile], f.Good := by
    intro f hf
    rw [List.mem_singleton.mp hf]
    exact ⟨by decide, rfl, by decide⟩
  obtain ⟨s, hs⟩ := mkfs_returns (by decide) hgood (by decide)
  obtain ⟨-, hlook, -⟩ := kernel_reads_image hs (by decide) (by decide) (by decide)
  obtain ⟨ip, t', hdir, hinum, -⟩ :=
    hlook (mounted s) ip0 0 shortFile mounted_mounted mounted_rootAt rfl mounted_hasPlace
  exact ⟨s, ip, t', hs, hdir, hinum⟩

end DuckoUnix.Mkfs
