import DuckoUnix.Inode.DirMap
import DuckoUnix.Inode.Path

/-!
# Path lookup follows the path

`namei` and `nameiparent` on the blocks of a file system with a well-formed directory tree, for a
process that nobody interrupts.
-/

namespace DuckoUnix.Inode

open Lib Fs Finset

variable {R : Rules} {s s' : Store} {v : View} {g : Ghost} {A : Alone} {ip jp cwd : Ip} {i j : ℕ}
  {path : List (BitVec 8)}

/-! ## A process with references -/

/-- What a process knows that owns the references `M` and has locked nothing. -/
def holder (v : View) (M : Multiset (Ip × ℕ)) : Ghost where
  tx := decide (0 < v.outstanding)
  refs := M
  held _ := none
  alone := some { Alone.of v ⟨false, M, fun _ => none, none⟩ with young := fun _ => False }

/-- A view in which nothing is locked, with references `M` of one process. -/
structure Unlocked (R : Rules) (v : View) (M : Multiset (Ip × ℕ)) : Prop where
  sb : v.sb = R.sb
  ninodes : R.sb.ninodes ≤ R.sb.nino
  count : ∀ ip, M.countP (fun x => x.1 = ip) ≤ (v.ent ip).ref
  inum : ∀ ip i, (ip, i) ∈ M → (v.ent ip).inum = i
  lt : ∀ ip, 0 < (v.ent ip).ref → (v.ent ip).inum < R.sb.nino
  unique : ∀ ip jp, 0 < (v.ent ip).ref → 0 < (v.ent jp).ref →
    (v.ent ip).inum = (v.ent jp).inum → ip = jp
  unlocked : ∀ ip, (v.ent ip).locked = false
  clean : ∀ ip, 0 < (v.ent ip).ref → (v.ent ip).valid = true →
    (v.ent ip).attr = (v.nodeOf ip).attr ∧ (v.nodeOf ip).attr.type ≠ T_FREE
  good : ∀ i < R.sb.nino, (v.node i).attr.type ≠ T_FREE → R.Good i (v.node i)
  stale : v.stale = false
  unlinked : ∀ i < R.sb.nino, (v.node i).attr.type ≠ T_FREE → (v.node i).attr.nlink = 0 →
    ∃ ip, 0 < (v.ent ip).ref ∧ (v.ent ip).inum = i ∧ (v.ent ip).valid = true

theorem Unlocked.stands {M : Multiset (Ip × ℕ)} (h : Unlocked R v M) : Stands R v (holder v M) where
  sb := h.sb
  ninodes := h.ninodes
  count := h.count
  inum := h.inum
  lt := h.lt
  unique := h.unique
  locked ip := iff_of_false (by rw [h.unlocked ip]; exact Bool.false_ne_true) fun h => h rfl
  owner ip hh := absurd rfl hh
  known ip a n hk := by cases hk
  clean ip hr _ hv := h.clean ip hr hv
  good i hi ht _ := h.good i hi ht
  tx htx := of_decide_eq_true htx
  stale := h.stale
  alone A hA := by
    cases hA
    have hholds := Alone.of_holds (v := v) (g := ⟨false, M, fun _ => none, none⟩) h.count h.unique
      fun ip hl => absurd hl (by rw [h.unlocked ip]; exact Bool.false_ne_true)
    refine ⟨hholds.node, hholds.others, hholds.free, hholds.locked, hholds.spent, fun i hi hd => ?_⟩
    have hd' : ¬ (False ∨ (v.node i).attr.type = T_FREE ∨ (v.node i).attr.nlink ≠ 0) := hd
    push Not at hd'
    rw [h.sb] at hi
    exact h.unlinked i hi hd'.2.1 hd'.2.2

theorem Stands.ref_pos (H : Stands R v g) (hm : (ip, i) ∈ g.refs) : 0 < (v.ent ip).ref :=
  Nat.lt_of_lt_of_le (Ghost.count_pos hm) (H.count ip)

theorem Stands.calm (H : Stands R v g) (hA : g.alone = some A) (htx : g.tx = true)
    (hheld : ∀ ip, g.held ip = none) (hyoung : ∀ i, ¬ A.young i) : g.Calm R A where
  alone := hA
  tx := htx
  held := hheld
  lt ip i hm := by
    rw [← H.inum ip i hm]
    exact H.lt ip (H.ref_pos hm)
  place ip i jp j hi hj := by
    have hii := H.inum ip i hi
    have hjj := H.inum jp j hj
    refine ⟨fun e => ?_, fun e => H.unique ip jp (H.ref_pos hi) (H.ref_pos hj) ?_⟩
    · rw [← hii, ← hjj, e]
    · rw [hii, hjj, e]
  unlinked i hi ht hl := by
    have hal := H.alone A hA
    have hd : ¬ A.Done i := by
      rintro (h | h | h)
      · exact hyoung i h
      · exact ht h
      · exact h hl
    obtain ⟨ip, hr, rfl, -⟩ := hal.unlinked i (by rw [H.sb]; exact hi) hd
    have hothers := hal.others ip hr
    by_cases h0 : 0 < A.others (v.ent ip).inum
    · exact Or.inl h0
    · obtain ⟨⟨jp, j⟩, hm, rfl⟩ := Multiset.countP_pos.mp (show 0 < g.count ip by omega)
      exact Or.inr ⟨jp, by rw [H.inum jp j hm]; exact hm⟩

/-! ## Well-formed trees -/

def nodes (s : Store) : ℕ → Node := (view s).node

/-- A file system with a well-formed directory tree, between two steps of the one process that runs,
which is in a transaction and has the working directory `cwd`. -/
structure TreeReady (s : Store) (cwd : Ip) : Prop where
  settled : Settled s
  unlocked : ∀ ip, (s.icache ip).locked = false
  tx : 0 < s.outstanding
  root : ROOTINO < s.sb.nino ∧ (nodes s ROOTINO).attr.type ≠ T_FREE
  cwd : 0 < (s.icache cwd).ref ∧ (nodes s (s.icache cwd).inum).attr.type ≠ T_FREE
  /-- directories have whole entries, and they are of inodes that are allocated -/
  dirs : ∀ i < s.sb.nino, (nodes s i).attr.type = T_DIR → DirOk s.sb (nodes s i).data ∧
    ∀ name j, lookup (nodes s i).data name = some j → (nodes s j).attr.type ≠ T_FREE
  /-- an inode without links is in use -/
  unlinked : ∀ i < s.sb.nino, (nodes s i).attr.type ≠ T_FREE → (nodes s i).attr.nlink = 0 →
    ∃ ip, 0 < (s.icache ip).ref ∧ (s.icache ip).inum = i ∧ (s.icache ip).valid = true

/-- The inode where the lookup of a path starts. -/
def start (s : Store) (cwd : Ip) (path : List (BitVec 8)) : ℕ := startOf path (s.icache cwd).inum

/-- Directories are as they should be, and nothing panics. -/
def lookups (sb : Superblock) : Rules where
  sb := sb
  Good _ n := n.attr.type = T_DIR → DirOk sb n.data
  Panics _ := False

theorem TreeReady.stands (h : TreeReady s cwd) :
    Stands (lookups s.sb) (view s) (holder (view s) {(cwd, (s.icache cwd).inum)}) := by
  have hc := h.settled.consistent
  refine Unlocked.stands ⟨rfl, hc.sound.layout.ninodes, fun ip => ?_, fun ip i hm => ?_, hc.sound.inum,
    hc.sound.unique, h.unlocked, fun ip hr hv => ?_, fun i hi _ ht => (h.dirs i hi ht).1,
    h.settled.stale, h.unlinked⟩
  · rw [← Multiset.cons_zero, Multiset.countP_cons, Multiset.countP_zero]
    split_ifs with e
    · rw [← e]
      exact h.cwd.1
    · exact Nat.zero_le _
  · cases Multiset.mem_singleton.mp hm
    rfl
  · obtain ⟨htype, hne⟩ := hc.live ip hr hv
    exact ⟨h.settled.clean ip hr (h.unlocked ip) hv, fun e => hne (htype.trans e)⟩

theorem TreeReady.walks (h : TreeReady s cwd) (hroom : TwoPlaces s) :
    ∃ A, A.node = nodes s ∧
      (holder (view s) {(cwd, (s.icache cwd).inum)}).Walks (lookups s.sb) A := by
  have H := h.stands
  have htx : (holder (view s) {(cwd, (s.icache cwd).inum)}).tx = true := decide_eq_true h.tx
  have hcalm := H.calm rfl htx (fun _ => rfl) fun _ => id
  have hcard := H.inUse_card_le rfl
  have htwo := hroom.card
  exact ⟨_, rfl, hcalm, fun _ _ hg => hg, Or.inr (by omega), Or.inr fun i hi ht => (h.dirs i hi ht).2⟩

theorem walk_none {N : ℕ → Node} {names : List (List (BitVec 8))} : walk N i names = none ↔
    ∃ before name behind d, names = before ++ name :: behind ∧ walk N i before = some d ∧
      ((N d).attr.type ≠ T_DIR ∨ lookup (N d).data name = none) := by
  induction names generalizing i with
  | nil =>
    refine iff_of_false (fun h => by cases h) ?_
    rintro ⟨before, name, behind, d, h, -⟩
    exact absurd h.symm (List.append_ne_nil_of_right_ne_nil _ (List.cons_ne_nil _ _))
  | cons name names ih =>
    constructor
    · intro h
      unfold walk at h
      by_cases ht : (N i).attr.type = T_DIR
      · rw [if_pos ht] at h
        cases hl : lookup (N i).data name with
        | none => exact ⟨[], name, names, i, rfl, rfl, .inr hl⟩
        | some j =>
          rw [hl] at h
          obtain ⟨before, name', behind, d, rfl, hd, hfail⟩ := ih.mp h
          refine ⟨name :: before, name', behind, d, rfl, ?_, hfail⟩
          unfold walk
          rw [if_pos ht, hl]
          exact hd
      · exact ⟨[], name, names, i, rfl, rfl, .inl ht⟩
    · rintro ⟨before, name', behind, d, h, hd, hfail⟩
      unfold walk
      cases before with
      | nil =>
        cases h
        cases hd
        rcases hfail with ht | hl
        · rw [if_neg ht]
        · rw [hl]
          exact ite_self _
      | cons x before =>
        obtain ⟨rfl, rfl⟩ := List.cons.inj h
        unfold walk at hd
        split_ifs at hd ⊢ with ht
        obtain ⟨j, hj, hwalk⟩ := Option.bind_eq_some_iff.mp hd
        rw [hj]
        exact ih.mpr ⟨before, name', behind, d, rfl, hwalk, hfail⟩

theorem TreeReady.namex (h : TreeReady s cwd) (hroom : TwoPlaces s) (path : List (BitVec 8))
    (par : Bool) : ∃ r s', (namex cwd path par).code s = .ok (r, s') ∧
      r.map (fun x => ((s'.icache x.1).inum, x.2)) =
        target (nodes s) par (start s cwd path) (components path) := by
  obtain ⟨A, hA, H⟩ := h.walks hroom
  have hty : (lookups s.sb).Typed (holder (view s) {(cwd, (s.icache cwd).inum)})
      (start s cwd path) := by
    refine Or.inr ⟨A, H.alone, ?_⟩
    rw [hA]
    unfold start startOf
    split_ifs
    · exact h.root.2
    · exact h.cwd.2
  have hspent : ∀ g' : Ghost, g'.alone = some A → ∀ A', g'.alone = some A' → A'.spent ≤ A.spent + 0 := by
    intro g' hg A' hA'
    rw [hg] at hA'
    cases hA'
    exact le_rfl
  have hspec : (Inode.namex cwd path par).wp (lookups s.sb).spec (fun r g' =>
      ((∀ ip name, r = some (ip, name) → ∃ j, (ip, j) ∈ g'.refs ∧
        target (nodes s) par (start s cwd path) (components path) = some (j, name)) ∧
      (r = none → target (nodes s) par (start s cwd path) (components path) = none)) ∧
      ∀ A', g'.alone = some A' → A'.spent ≤ A.spent + 0)
      (holder (view s) {(cwd, (s.icache cwd).inum)}) := by
    refine namex_wp H (Multiset.mem_singleton_self _) hty h.root.1 (fun hnone => ?_)
      fun ip j name hsome _ => ?_
    · rw [hA] at hnone
      exact ⟨⟨fun _ _ e => (by cases e), fun _ => hnone⟩, hspent _ H.alone⟩
    · rw [hA] at hsome
      refine ⟨⟨fun ip' name' e => ?_, fun e => (by cases e)⟩, hspent _ H.alone⟩
      cases e
      exact ⟨j, Ghost.mem_take, hsome⟩
  obtain ⟨r, s', hs', -, v', hrep', g', ⟨hsome, hnone⟩, H'⟩ :=
    h.stands.wp_room (Inode.namex cwd path par) h.settled.consistent.rep H.alone (Nat.zero_le _)
      (fun _ => id) hspec
  refine ⟨r, s', hs', ?_⟩
  cases r with
  | none => exact (hnone rfl).symm
  | some x =>
    obtain ⟨j, hj, htarget⟩ := hsome x.1 x.2 rfl
    have hinum := H'.inum x.1 j hj
    rw [hrep'.ent] at hinum
    rw [htarget, Option.map_some]
    exact congrArg some (Prod.ext hinum rfl)

theorem TreeReady.namei (h : TreeReady s cwd) (hroom : TwoPlaces s) (path : List (BitVec 8)) :
    ∃ r s', (namei cwd path).code s = .ok (r, s') ∧ r.map (fun ip => (s'.icache ip).inum) =
      walk (nodes s) (start s cwd path) (components path) := by
  obtain ⟨r, s', hs', hr⟩ := h.namex hroom path false
  refine ⟨r.map Prod.fst, s', code_bind_ok hs' _, ?_⟩
  have hr' := congrArg (Option.map Prod.fst) hr
  rw [Option.map_map] at hr' ⊢
  refine hr'.trans ?_
  show Option.map _ ((walk _ _ _).map _) = _
  rw [Option.map_map]
  exact Option.map_id'

/-- For every path and every well-formed directory tree, if two places of the inode cache are empty:
`skipelem` yields the components of the path; `namei` returns the inode that is found by looking them
up one after the other, and nothing iff one of them is missing or is looked up in what is no directory;
`nameiparent` returns the directory of the last component, and nothing for a path without components. -/
theorem namei_follows_path (h : TreeReady s cwd) (hroom : TwoPlaces s) (path : List (BitVec 8)) :
    elements (path.length + 1) path = components path ∧
    (∃ r s', (namei cwd path).code s = .ok (r, s') ∧ r.map (fun ip => (s'.icache ip).inum) =
      walk (nodes s) (start s cwd path) (components path)) ∧
    (walk (nodes s) (start s cwd path) (components path) = none ↔
      ∃ before name behind d, components path = before ++ name :: behind ∧
        walk (nodes s) (start s cwd path) before = some d ∧
        ((nodes s d).attr.type ≠ T_DIR ∨ lookup (nodes s d).data name = none)) ∧
    ∃ r s', (nameiparent cwd path).code s = .ok (r, s') ∧
      r.map (fun x => ((s'.icache x.1).inum, x.2)) =
        walkParent (nodes s) (start s cwd path) (components path) ∧
      (components path = [] → r = none) ∧
      ∀ dp name, r = some (dp, name) →
        walk (nodes s) (start s cwd path) (components path) =
          lookup (nodes s (s'.icache dp).inum).data name := by
  refine ⟨elements_eq_components (Nat.lt_succ_self _), ?_, walk_none, ?_⟩
  · exact h.namei hroom path
  · obtain ⟨r, s', hs', hr⟩ := h.namex hroom path true
    refine ⟨r, s', hs', hr, fun hnil => ?_, fun dp name e => ?_⟩
    · rw [hnil] at hr
      exact Option.map_eq_none_iff.mp hr
    · rw [e] at hr
      have hparent : walkParent (nodes s) (start s cwd path) (components path) = some _ := hr.symm
      have hne : components path ≠ [] := by
        intro hnil
        rw [hnil] at hparent
        cases hparent
      rw [walk_eq_walkParent hne, hparent]
      rfl

/-! ### File systems with one directory -/

/-- Nothing is locked, and the inodes other than the root directory are free or empty files. -/
theorem oneDirectory_ready {s : Store} (hsb : s.sb = .mkfs) (hfs : s.fssize = FSSIZE)
    (hallocs : s.readAllocs = 0) (htx : 0 < s.outstanding) (hstale : s.stale = false)
    (hroot : dinode .mkfs s.disk 1 = rootDin)
    (hrest : ∀ i < Superblock.mkfs.nino, i ≠ 1 →
      dinode .mkfs s.disk i = .zero ∨ dinode .mkfs s.disk i = emptyFile)
    (huse : ∀ b < 1000, inUse .mkfs s.disk b = decide (b < 60))
    (hcwd : 0 < (s.icache ip0).ref ∧ (s.icache ip0).inum = 1)
    (hunlocked : ∀ ip, (s.icache ip).locked = false)
    (hentry : ∀ ip, 0 < (s.icache ip).ref → (s.icache ip).inum < Superblock.mkfs.nino ∧
      (s.icache ip).din = dinode .mkfs s.disk (s.icache ip).inum ∧ (s.icache ip).din.type ≠ T_FREE)
    (hunique : ∀ ip jp, 0 < (s.icache ip).ref → 0 < (s.icache jp).ref →
      (s.icache ip).inum = (s.icache jp).inum → ip = jp)
    (hnames : ∀ k < 32, (dirent (content s.disk rootDin) k).inum ≠ 0 →
      (dirent (content s.disk rootDin) k).inum.toNat < Superblock.mkfs.nino ∧
      (dinode .mkfs s.disk (dirent (content s.disk rootDin) k).inum.toNat).type ≠ T_FREE) :
    TreeReady s ip0 := by
  have hattr : ∀ i, (nodes s i).attr = (dinode .mkfs s.disk i).attr := by
    rw [← hsb]
    exact fun _ => rfl
  have hdata : (nodes s 1).data = content s.disk rootDin := by
    show (Node.of s.disk (dinode s.sb s.disk 1)).data = _
    rw [hsb, hroot, Node.of, if_neg (by decide)]
  have hlength : (content s.disk rootDin).length = 512 := length_content
  have hlookup : ∀ name j, lookup (content s.disk rootDin) name = some j →
      j < Superblock.mkfs.nino ∧ (nodes s j).attr.type ≠ T_FREE := by
    intro name j h
    obtain ⟨k, hk, rfl⟩ := Option.map_eq_some_iff.mp h
    obtain ⟨hlt, his, -⟩ := find_eq_some.mp hk
    unfold nent at hlt
    rw [hlength] at hlt
    rw [hattr]
    exact hnames k hlt his.1
  have hlive : (nodes s 1).attr.type ≠ T_FREE := by
    rw [hattr, hroot]
    decide
  refine ⟨⟨?_, ?_, ?_, hstale⟩, hunlocked, htx, ⟨?_, hlive⟩, ⟨hcwd.1, ?_⟩, ?_, ?_⟩
  · apply oneDirectory_consistent hroot _ huse hsb hfs rfl hallocs
      (fun ip hr => (hentry ip hr).1) hunique fun ip hr _ => (hentry ip hr).2
    · intro i hi e
      rcases hrest i hi e with h | h <;> rw [h] <;> rfl
    · intro i hi e
      rcases hrest i hi e with h | h
      · exact Or.inl (congrArg Dinode.type h)
      · exact Or.inr (congrArg Dinode.addrs h)
  · intro ip hr _ _
    rw [hsb, (hentry ip hr).2.1]
  · intro ip hl
    rw [hunlocked ip] at hl
    cases hl
  · rw [hsb]
    decide
  · rw [hcwd.2]
    exact hlive
  · rw [hsb]
    intro i hi ht
    by_cases e : i = 1
    · rw [e, hdata]
      refine ⟨⟨⟨?_, ?_⟩, fun name j hl => (hlookup name j hl).1⟩, fun name j hl => (hlookup name j hl).2⟩
      · rw [hlength]
        exact ⟨32, rfl⟩
      · rw [hlength]
        decide
    · rw [hattr] at ht
      rcases hrest i hi e with h | h <;> rw [h] at ht <;> exact absurd ht (by decide)
  · rw [hsb]
    intro i hi ht hl
    rw [hattr] at ht hl
    by_cases e : i = 1
    · rw [e, hroot] at hl
      exact absurd hl (by decide)
    · rcases hrest i hi e with h | h
      · rw [h] at ht
        exact absurd rfl ht
      · rw [h] at hl
        exact absurd hl (by decide)

/-! ### The root directory -/

/-- A process in a transaction has the root directory as its working directory. -/
def rootOpen : Store := { rootBoot.put ip0 ⟨1, 1, false, true, rootDin⟩ with outstanding := 1 }

theorem rootOpen_entry {ip : Ip} (hr : 0 < (rootOpen.icache ip).ref) :
    ip = ip0 ∧ rootOpen.icache ip = ⟨1, 1, false, true, rootDin⟩ := by
  by_cases e : ip = ip0
  · rw [e]
    exact ⟨rfl, rfl⟩
  · have hc : rootOpen.icache ip = rootBoot.icache ip := put_of_ne e
    rw [hc] at hr
    exact absurd hr (Nat.lt_irrefl 0)

theorem rootOpen_ready : TreeReady rootOpen ip0 := by
  apply oneDirectory_ready (s := rootOpen) rfl rfl rfl Nat.one_pos rfl rootDisk_one _ rootDisk_inUse
    ⟨Nat.one_pos, rfl⟩ (by decide +kernel)
  · intro ip hr
    rw [(rootOpen_entry hr).2]
    exact ⟨by decide, rootDisk_one.symm, by decide⟩
  · intro ip jp hr hr' _
    rw [(rootOpen_entry hr).1, (rootOpen_entry hr').1]
  · decide +kernel
  · intro i hi e
    left
    exact (rootDisk_dinode hi).trans (if_neg e)

/-- The path `/.` is the root directory. -/
theorem namei_follows_path_root : ∃ r s', (namei ip0 [47, 46]).code rootOpen = .ok (r, s') ∧
    r.map (fun ip => (s'.icache ip).inum) = some 1 := by
  have hroom : TwoPlaces rootOpen := ⟨⟨1, by decide⟩, ⟨2, by decide⟩, by decide, rfl, rfl⟩
  obtain ⟨-, ⟨r, s', hs', hr⟩, -⟩ := namei_follows_path rootOpen_ready hroom [47, 46]
  refine ⟨r, s', hs', hr.trans ?_⟩
  have hwalk : walk (nodes rootOpen) 1 [[46]] = some 1 := by decide +kernel
  exact hwalk

/-! ### A full inode cache -/

/-- A block of inodes that are empty files with one link. -/
def fileBlock : Bytes := fun k => if k % 64 = 0 then 2 else if k % 64 = 6 then 1 else 0

/-- Inode 1 is the root directory and has an entry `a` for inode 2; the inodes from 2 to 103 are empty
files. -/
def crowdDisk : Disk := fun b =>
  if b = 32 then fun k =>
    if k < 64 then 0 else if k < 128 then putDinode (fun _ => 0) 1 rootDin k else fileBlock k
  else if 32 < b ∧ b < 45 then fileBlock
  else if b = 58 then fun k => if k < 7 then 255 else if k = 7 then 15 else 0
  else if b = 59 then fun k => if k = 32 then 2 else if k = 34 then 97 else rootEntries k
  else fun _ => 0

/-- The root directory is the working directory of a process, and 99 files are open. -/
def crowded : Store where
  sb := .mkfs
  fssize := FSSIZE
  disk := crowdDisk
  icache ip :=
    if ip.val = 0 then ⟨1, 1, false, true, rootDin⟩ else ⟨ip.val + 2, 1, false, true, emptyFile⟩
  outstanding := 1
  logged := []
  allocs := 0
  readAllocs := 0
  stale := false

def crowdDin (i : ℕ) : Dinode :=
  if i = 1 then rootDin else if 2 ≤ i ∧ i < 104 then emptyFile else .zero

theorem crowdDisk_dinode {i : ℕ} (hi : i < Superblock.mkfs.nino) :
    dinode .mkfs crowdDisk i = crowdDin i := by
  have hattr : ∀ i < Superblock.mkfs.nino,
      (dinode .mkfs crowdDisk i).attr = (crowdDin i).attr := by decide +kernel
  have hsize : ∀ i < Superblock.mkfs.nino,
      (dinode .mkfs crowdDisk i).size = (crowdDin i).size := by decide +kernel
  have haddrs : ∀ i < Superblock.mkfs.nino, ∀ j,
      (dinode .mkfs crowdDisk i).addrs j = (crowdDin i).addrs j := by decide +kernel
  exact (Dinode.attr_eq_iff (hsize i hi) (funext (haddrs i hi))).mp (hattr i hi)

/-- The free map is that of the file system without files. -/
theorem crowdDisk_inUse (b : ℕ) (hb : b < 1000) : inUse .mkfs crowdDisk b = decide (b < 60) := by
  have hmap : BBLOCK b .mkfs = 58 := by
    show b / 4096 + 58 = 58
    omega
  rw [← rootDisk_inUse b hb]
  apply inUse_congr
  rw [hmap]
  rfl

theorem crowded_ready : TreeReady crowded ip0 := by
  have hentry : ∀ ip, (crowded.icache ip).locked = false ∧
      (crowded.icache ip).inum < Superblock.mkfs.nino ∧
      (crowded.icache ip).din = crowdDin (crowded.icache ip).inum ∧
      (crowded.icache ip).din.type ≠ T_FREE := by
    decide +kernel
  apply oneDirectory_ready (s := crowded) rfl rfl rfl Nat.one_pos rfl (crowdDisk_dinode (by decide)) _
    crowdDisk_inUse ⟨Nat.one_pos, rfl⟩ fun ip => (hentry ip).1
  · intro ip _
    obtain ⟨-, hi, hdin, htype⟩ := hentry ip
    exact ⟨hi, hdin.trans (crowdDisk_dinode hi).symm, htype⟩
  · intro ip jp _ _ h
    have hinum : ∀ ip, (crowded.icache ip).inum = if ip.val = 0 then 1 else ip.val + 2 := by
      decide +kernel
    rw [hinum, hinum] at h
    apply Fin.ext
    split_ifs at h <;> omega
  · decide +kernel
  · intro i hi e
    rw [show crowded.disk = crowdDisk from rfl, crowdDisk_dinode hi, crowdDin, if_neg e]
    exact (ite_eq_or_eq _ _ _).symm

/-- The file `/a` cannot be looked up: there is no place for its inode in the cache. -/
theorem namei_cache_full : TreeReady crowded ip0 ∧
    walk (nodes crowded) (start crowded ip0 [47, 97]) (components [47, 97]) = some 2 ∧
    ∃ s', (namei ip0 [47, 97]).code crowded = .error (.igetNoInodes, s') := by
  have hrun : (match (namei ip0 [47, 97]).code crowded with
      | .ok _ => none | .error e => some e.1) = some Panic.igetNoInodes := by decide +kernel
  refine ⟨crowded_ready, by decide +kernel, ?_⟩
  cases hx : (namei ip0 [47, 97]).code crowded with
  | ok p =>
    rw [hx] at hrun
    cases hrun
  | error e =>
    rw [hx] at hrun
    obtain ⟨e, s'⟩ := e
    cases hrun
    exact ⟨s', rfl⟩

end DuckoUnix.Inode
