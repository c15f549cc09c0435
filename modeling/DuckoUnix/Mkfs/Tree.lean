import DuckoUnix.Mkfs.Files

/-!
# What `mkfs` makes of its arguments

Inode 1 is the root directory and the files get the numbers from 2 on, as long as the inode blocks
have room for them. `Made` describes the image after some of the files have been added; the loop of
`main` carries it from one file to the next. `Formatted` is the image that `mkfs` leaves behind.
-/

namespace DuckoUnix.Mkfs

open Lib Fs Function

variable {E : Exit → Prop} {s s' : Image} {d d' : Disk} {di : Dinode} {inum : ℕ}
  {c p : List (BitVec 8)} {a : Attr} {f : Input} {files : List Input}

/-! ## The inodes of the image -/

/-- What an inode stands for: nothing, or a file with its attributes and its contents. -/
abbrev Node := Option (Attr × List (BitVec 8))

/-- The inode `di` stands for the node. -/
def Is (d : Disk) (di : Dinode) : Node → Prop
  | none => di = .zero
  | some (a, c) => di.attr = a ∧ a.type ≠ T_FREE ∧ Holds d di c

theorem Is.same {x : Node} (h : Is d di x) (hsame : di.type ≠ T_FREE → SameFile d d' di) :
    Is d' di x := by
  match x with
  | none => exact h
  | some (a, c) =>
    obtain ⟨hattr, htype, hc⟩ := h
    refine ⟨hattr, htype, hc.same (hsame ?_)⟩
    rw [← hattr] at htype
    exact htype

/-- The inodes of the image stand for `N`. -/
structure Tree (N : ℕ → Node) (s : Image) : Prop where
  rest : Rest s
  node : ∀ i < Superblock.mkfs.nino, Is s.marked (dinode .mkfs s.marked i) (N i)

variable {N : ℕ → Node}

/-- One inode has changed. -/
theorem Tree.setNode {x : Node} (h : Tree N s) (hrest : Rest s')
    (hself : Is s'.marked (dinode .mkfs s'.marked inum) x)
    (hinodes : ∀ j < Superblock.mkfs.nino, j ≠ inum →
      dinode .mkfs s'.marked j = dinode .mkfs s.marked j)
    (hfiles : ∀ j < Superblock.mkfs.nino, j ≠ inum → (dinode .mkfs s.marked j).type ≠ T_FREE →
      SameFile s.marked s'.marked (dinode .mkfs s.marked j)) :
    Tree (update N inum x) s' := by
  refine ⟨hrest, fun j hj => ?_⟩
  by_cases e : j = inum
  · rw [e, update_self]
    exact hself
  · rw [update_of_ne e, hinodes j hj e]
    exact (h.node j hj).same (hfiles j hj e)

/-- The attributes that `ialloc` sets. -/
def newAttr (type : BitVec 16) : Attr := ⟨type, 0, 0, 1⟩

theorem holds_new (type : BitVec 16) :
    Holds d { Dinode.zero with type := type, nlink := 1 } [] where
  content := rfl
  noHole _ hbn := absurd hbn (Nat.not_lt_zero _)
  beyond _ _ := refAt_of_bare rfl

theorem ialloc_wp {type : BitVec 16} (h : Tree N s) (hi : s.freeinode < Superblock.mkfs.nino)
    (hnone : N s.freeinode = none) (htype : type ≠ T_FREE) :
    wp E (ialloc type) (fun i s' => i = s.freeinode ∧
      Tree (update N s.freeinode (some (newAttr type, []))) s' ∧
      s'.freeinode = s.freeinode + 1 ∧ s'.inodes = s.inodes ++ [s.freeinode] ∧
      s'.img 1 = s.img 1 ∧ s'.freeblock = s.freeblock) s := by
  have hfree : dinode .mkfs s.marked s.freeinode = .zero := by
    have := h.node _ hi
    rwa [hnone] at this
  obtain ⟨s₁, hs₁⟩ : ∃ s₁, s₁ = { s with
      freeinode := s.freeinode + 1, inodes := s.inodes ++ [s.freeinode] } := ⟨_, rfl⟩
  have hfresh : Fresh s₁ := by
    rw [hs₁]
    exact ⟨h.rest.fresh.nsect, h.rest.fresh.low, h.rest.fresh.high, h.rest.fresh.zero,
      h.rest.fresh.winodes, h.rest.fresh.assigned⟩
  have hmarked : s₁.marked = s.marked := by
    rw [hs₁]
    rfl
  unfold ialloc
  rw [wp_bind, wp_get, wp_bind, wp_modify, ← hs₁, wp_bind]
  refine wp_winode hfresh hi ?_
  rw [wp_pure]
  generalize hdi : { Dinode.zero with type := type, nlink := 1 } = di
  have hmarked' : (s₁.setInode s.freeinode di).marked =
      setDinode .mkfs s.marked s.freeinode di := by
    rw [setInode_marked hi, hmarked]
  have hdin : ∀ j, dinode .mkfs (s₁.setInode s.freeinode di).marked j =
      if j = s.freeinode then di else dinode .mkfs s.marked j := by
    intro j
    rw [hmarked', dinode_setDinode]
  have hfiles : ∀ j < Superblock.mkfs.nino, (dinode .mkfs s.marked j).type ≠ T_FREE →
      SameFile s.marked (s₁.setInode s.freeinode di).marked (dinode .mkfs s.marked j) := by
    intro j hj ht
    rw [hmarked']
    exact sameFile_setDinode layout_mkfs h.rest.own hi hj ht
  have hkeeps : Keeps s₁ (s₁.setInode s.freeinode di) := keeps_setInode
  refine ⟨rfl, h.setNode ⟨hfresh.setInode hi, ?_, ?_⟩ ?_ (fun j _ hne => ?_) fun j hj _ ht => ?_, ?_⟩
  · -- neither the free inode nor the new one has blocks
    refine h.rest.own.exact.congr (refs_replace (i := s.freeinode) ?_ ?_ (fun j _ hne => ?_)
      fun j hj ht h0 => ?_) fun b _ => ?_
    · rw [hfree]
      exact Or.inl rfl
    · rw [hdin, if_pos rfl, ← hdi]
      exact Or.inr rfl
    · rw [hdin, if_neg hne]
    · obtain ⟨-, hdata, -⟩ := h.rest.own.indirect hj ht h0
      rw [hmarked']
      exact setDinode_of_ne (layout_mkfs.ne_IBLOCK hdata hi)
    · rw [hmarked']
      exact inUse_congr (setDinode_of_ne (IBLOCK_ne_BBLOCK hi).symm)
  · intro b hb
    rw [hmarked', inUse_congr (setDinode_of_ne (IBLOCK_ne_BBLOCK hi).symm)]
    exact h.rest.own.area b hb
  · rw [hdin, if_pos rfl, ← hdi]
    exact ⟨rfl, htype, holds_new type⟩
  · rw [hdin, if_neg hne]
  · exact hfiles j hj ht
  · have himg := hkeeps.super
    rw [hs₁] at himg ⊢
    exact ⟨rfl, rfl, himg, rfl⟩

theorem Tree.iappend_wp (h : Tree N s) (hi : inum < Superblock.mkfs.nino)
    (hN : N inum = some (a, c)) (hmax : c.length + p.length ≤ MAXFILE * BSIZE ∨ E .abort)
    (hroom : s.freeblock + 2 * chunks c.length p.length ≤ FSSIZE ∨ E .failed) :
    wp E (iappend inum p) (fun _ s' => Tree (update N inum (some (a, c ++ p))) s' ∧
      Keeps s s' ∧ s'.freeblock ≤ s.freeblock + 2 * chunks c.length p.length) s := by
  have hnode := h.node inum hi
  rw [hN] at hnode
  obtain ⟨hattr, htype, hc⟩ := hnode
  have ht : (dinode .mkfs s.marked inum).type ≠ T_FREE := by
    rw [← hattr] at htype
    exact htype
  rw [← hc.size] at hmax hroom
  refine wp_mono (Mkfs.iappend_wp h.rest hi ht hmax hroom) fun _ s' ha => ⟨?_, ha.keeps, ?_⟩
  · refine h.setNode ha.rest ⟨?_, htype, ha.holds c hc⟩ ha.inodes ha.files
    rw [ha.attr, hattr]
  · rw [← hc.size]
    exact ha.count

/-! ## The files of the command line -/

/-- The blocks that the calls of `iappend` for one file write to, if it has `off` bytes already. -/
def cost (off : ℕ) : List (List (BitVec 8)) → ℕ
  | [] => 0
  | buf :: reads => chunks off buf.length + cost (off + buf.length) reads

theorem copyIn_wp {reads : List (List (BitVec 8))} (h : Tree N s) (hi : inum < Superblock.mkfs.nino)
    (hN : N inum = some (a, c))
    (hmax : c.length + reads.flatten.length ≤ MAXFILE * BSIZE ∨ E .abort)
    (hroom : s.freeblock + 2 * cost c.length reads ≤ FSSIZE ∨ E .failed) :
    wp E (copyIn inum reads)
      (fun _ s' => Tree (update N inum (some (a, c ++ reads.flatten))) s' ∧
        Keeps s s' ∧ s'.freeblock ≤ s.freeblock + 2 * cost c.length reads) s := by
  induction reads generalizing N s c with
  | nil =>
    refine ⟨?_, .refl, Nat.le_add_right _ _⟩
    rw [List.flatten_nil, List.append_nil, ← hN, update_eq_self]
    exact h
  | cons buf reads ih =>
    rw [List.flatten_cons, List.length_append] at hmax
    unfold cost at hroom
    unfold copyIn
    rw [wp_bind]
    refine wp_mono (h.iappend_wp hi hN (hmax.imp_left (by omega)) (hroom.imp_left (by omega))) ?_
    rintro _ s₁ ⟨h₁, hkeeps, hcount⟩
    have hlen : (c ++ buf).length = c.length + buf.length := List.length_append
    refine wp_mono (ih h₁ (update_self _ _ _) ?_ ?_) ?_
    · rw [hlen]
      exact hmax.imp_left (by omega)
    · rw [hlen]
      exact hroom.imp_left (by omega)
    · rintro _ s' ⟨h', hkeeps', hcount'⟩
      rw [update_idem, List.append_assoc] at h'
      rw [hlen] at hcount'
      refine ⟨h', hkeeps.trans hkeeps', ?_⟩
      unfold cost
      omega

def entries : ℕ → List Input → List (BitVec 8)
  | _, [] => []
  | i, f :: files => entry i f.stored ++ entries (i + 1) files

theorem entries_append {i : ℕ} {more : List Input} :
    entries i (files ++ more) = entries i files ++ entries (i + files.length) more := by
  induction files generalizing i with
  | nil => rfl
  | cons f files ih =>
    rw [List.cons_append, entries, entries, ih, List.append_assoc, List.length_cons, Nat.add_assoc,
      Nat.add_comm 1]

def rootData (files : List Input) : List (BitVec 8) :=
  entry ROOTINO [46] ++ entry ROOTINO [46, 46] ++ entries 2 files

theorem rootData_append : rootData (files ++ [f]) =
    rootData files ++ entry (files.length + 2) f.stored := by
  unfold rootData
  rw [entries_append, ← List.append_assoc, Nat.add_comm 2, entries, entries, List.append_nil]

theorem entry_length {i : ℕ} {name : List (BitVec 8)} : (entry i name).length = DIRENT := by
  unfold entry Dirent.bytes
  rw [List.length_append, length_strncpy]
  rfl

theorem entries_length {i : ℕ} : (entries i files).length = files.length * DIRENT := by
  induction files generalizing i with
  | nil => exact (Nat.zero_mul _).symm
  | cons f files ih =>
    rw [entries, List.length_append, entry_length, ih, List.length_cons, Nat.add_mul, Nat.one_mul,
      Nat.add_comm]

theorem rootData_length : (rootData files).length = (files.length + 2) * DIRENT := by
  unfold rootData
  rw [List.length_append, List.length_append, entry_length, entry_length, entries_length, Nat.add_mul]
  omega

theorem chunks_entry (n : ℕ) : chunks (n * DIRENT) DIRENT = 1 := by
  unfold chunks
  rw [if_neg (by decide)]
  unfold DIRENT BSIZE
  omega

/-- What the inodes stand for after `files` have been added. -/
def node (files : List Input) : ℕ → Node
  | 0 => none
  | 1 => some (newAttr T_DIR, rootData files)
  | j + 2 => files[j]?.map fun f => (newAttr T_FILE, f.data)

theorem node_file (j : ℕ) :
    node files (j + 2) = files[j]?.map fun f => (newAttr T_FILE, f.data) := rfl

theorem node_append : node (files ++ [f]) = update (update (update
    (node files) (files.length + 2) (some (newAttr T_FILE, [])))
    1 (some (newAttr T_DIR, rootData files ++ entry (files.length + 2) f.stored)))
    (files.length + 2) (some (newAttr T_FILE, [] ++ f.data)) := by
  funext i
  match i with
  | 0 => rfl
  | 1 =>
    rw [update_of_ne (by omega), update_self]
    unfold node
    rw [rootData_append]
  | j + 2 =>
    by_cases e : j = files.length
    · rw [e, update_self, List.nil_append, node_file, List.getElem?_concat_length]
      rfl
    · rw [update_of_ne (by omega), update_of_ne (by omega),
        update_of_ne (by omega), node_file, node_file]
      by_cases hlt : j < files.length
      · rw [List.getElem?_append_left hlt]
      · rw [List.getElem?_eq_none (by rw [List.length_append, List.length_singleton]; omega),
          List.getElem?_eq_none (by omega)]

/-- The image after `files` have been added. -/
structure Made (files : List Input) (s : Image) : Prop where
  tree : Tree (node files) s
  freeinode : s.freeinode = files.length + 2
  inodes : s.inodes = List.range' 1 (files.length + 1)
  super : s.img 1 = sbBytes .mkfs

/-- The file can be read, and it is not too large. -/
structure Input.Good (f : Input) : Prop where
  name : 47 ∉ f.name
  opens : f.reads.isSome
  size : f.data.length ≤ MAXFILE * BSIZE

/-- An upper bound for the blocks that the files need. -/
def need : List Input → ℕ
  | [] => 0
  | f :: files => 2 * (1 + cost 0 (f.reads.getD [])) + need files

theorem addFile_wp (h : Made files s) (hn : files.length < 206)
    (hE : f.Good ∧ s.freeblock + need [f] ≤ FSSIZE ∨ ∀ e, E e) :
    wp E (addFile ROOTINO f)
      (fun _ s' => Made (files ++ [f]) s' ∧ s'.freeblock ≤ s.freeblock + need [f]) s := by
  have hi : s.freeinode < Superblock.mkfs.nino := by
    rw [h.freeinode]
    exact Nat.lt_of_lt_of_le (Nat.add_lt_add_right hn 2) (by decide)
  have hnone : node files s.freeinode = none := by
    rw [h.freeinode, node_file, List.getElem?_eq_none (Nat.le_refl _)]
    rfl
  unfold addFile
  refine wp_ite (fun hname => ?_) fun hname => ?_
  · rcases hE with hE | hE
    · exact absurd hname hE.1.name
    · exact hE _
  cases hreads : f.reads with
  | none =>
    rcases hE with hE | hE
    · have hopens := hE.1.opens
      rw [hreads] at hopens
      cases hopens
    · exact hE _
  | some reads =>
    have hdata : f.data = reads.flatten := by
      unfold Input.data
      rw [hreads]
      rfl
    have hneed : need [f] = 2 * (1 + cost 0 reads) := by
      unfold need need
      rw [hreads]
      rfl
    rw [hneed] at hE ⊢
    dsimp only
    rw [wp_bind]
    refine wp_mono (ialloc_wp h.tree hi hnone (by decide)) ?_
    rintro _ s₁ ⟨rfl, htree₁, hfi₁, hinodes₁, hsuper₁, hfb₁⟩
    rw [h.freeinode] at htree₁ hfi₁ hinodes₁ ⊢
    rw [wp_bind]
    have hroot : update (node files) (files.length + 2) (some (newAttr T_FILE, []))
        ROOTINO = some (newAttr T_DIR, rootData files) :=
      update_of_ne (by unfold ROOTINO; omega) _ _
    have hone : chunks (rootData files).length (entry (files.length + 2) f.stored).length = 1 := by
      rw [rootData_length, entry_length, chunks_entry]
    refine wp_mono (htree₁.iappend_wp (by decide) hroot (Or.inl ?_) ?_) ?_
    · rw [rootData_length, entry_length]
      unfold MAXFILE NDIRECT NINDIRECT BSIZE DIRENT
      omega
    · rw [hone]
      exact hE.imp (by omega) fun hE => hE _
    · rintro _ s₂ ⟨htree₂, hkeeps₂, hfb₂⟩
      rw [hone] at hfb₂
      have hnew : update (update (node files) (files.length + 2)
          (some (newAttr T_FILE, []))) ROOTINO
          (some (newAttr T_DIR, rootData files ++ entry (files.length + 2) f.stored))
          (files.length + 2) = some (newAttr T_FILE, []) := by
        rw [update_of_ne (by unfold ROOTINO; omega), update_self]
      refine wp_mono (copyIn_wp htree₂ (by rw [← h.freeinode]; exact hi) hnew ?_ ?_) ?_
      · rw [List.length_nil, Nat.zero_add, ← hdata]
        exact hE.imp (fun hE => hE.1.size) fun hE => hE _
      · exact hE.imp (fun hE => by have := hE.2; rw [List.length_nil]; omega) fun hE => hE _
      · rintro _ s' ⟨htree', hkeeps', hfb'⟩
        rw [List.length_nil] at hfb'
        refine ⟨⟨?_, ?_, ?_, ?_⟩, by omega⟩
        · rw [node_append, hdata]
          exact htree'
        · rw [hkeeps'.freeinode, hkeeps₂.freeinode, hfi₁, List.length_append]
          rfl
        · have hrange : List.range' 1 (files.length + 1 + 1) =
              List.range' 1 (files.length + 1) ++ [files.length + 2] := by
            rw [List.range'_concat, Nat.one_mul, Nat.add_comm 1]
          rw [hkeeps'.inodes, hkeeps₂.inodes, hinodes₁, h.inodes, List.length_append]
          exact hrange.symm
        · rw [hkeeps'.super, hkeeps₂.super, hsuper₁, h.super]

theorem addFiles_wp {more : List Input} (h : Made files s) (hn : files.length + more.length ≤ 206)
    (hE : (∀ f ∈ more, f.Good) ∧ s.freeblock + need more ≤ FSSIZE ∨ ∀ e, E e) :
    wp E (addFiles ROOTINO more)
      (fun _ s' => Made (files ++ more) s' ∧ s'.freeblock ≤ s.freeblock + need more) s := by
  induction more generalizing files s with
  | nil =>
    refine ⟨?_, Nat.le_add_right _ _⟩
    rw [List.append_nil]
    exact h
  | cons f more ih =>
    rw [List.length_cons] at hn
    have hneed : need (f :: more) = need [f] + need more := rfl
    unfold addFiles
    rw [wp_bind]
    refine wp_mono (addFile_wp h (by omega) (hE.imp_left fun hE => ⟨hE.1 f List.mem_cons_self, ?_⟩)) ?_
    · have := hE.2
      omega
    · rintro _ s₁ ⟨h₁, hfb₁⟩
      refine wp_mono (ih h₁ ?_ (hE.imp_left fun hE => ⟨fun f hf => ?_, ?_⟩)) ?_
      · rw [List.length_append, List.length_singleton]
        omega
      · exact hE.1 f (List.mem_cons_of_mem _ hf)
      · have := hE.2
        omega
      · rintro _ s' ⟨h', hfb'⟩
        rw [List.append_assoc] at h'
        exact ⟨h', by omega⟩

/-! ## The beginning and the end -/

theorem zeroAll_wp {Q : Unit → Image → Prop} {n : ℕ} (hn : n ≤ FSSIZE) (hzero : s.img = fun _ _ => 0)
    (hempty : s.nsect = 0) (hQ : Q () { s with nsect := n }) : wp E (zeroAll n) Q s := by
  induction n generalizing Q with
  | zero =>
    rw [← hempty] at hQ
    exact hQ
  | succ n ih =>
    unfold zeroAll
    rw [wp_bind]
    refine ih (Nat.le_of_succ_le hn) ?_
    unfold wsect
    rw [wp_modify, sector_eq (Nat.le_of_succ_le hn)]
    have himg : update s.img n (fun _ => 0) = s.img := by
      rw [hzero]
      exact update_eq_self _ _
    have hmax : max n (n + 1) = n + 1 := Nat.max_eq_right (Nat.le_succ n)
    dsimp only
    rw [himg, hmax]
    exact hQ

def blank : Image := { start with nsect := FSSIZE, img := update start.img 1 (sbBytes .mkfs) }

theorem blank_img : blank.img = update (fun _ _ => 0) 1 (sbBytes .mkfs) := rfl

theorem blank_dinode {i : ℕ} (hi : i < Superblock.mkfs.nino) : dinode .mkfs blank.marked i = .zero := by
  have hne : IBLOCK i .mkfs ≠ 1 := by
    show i / 8 + 32 ≠ 1
    omega
  have hblk : blank.marked (IBLOCK i .mkfs) = fun _ => 0 := by
    rw [marked_of_ne (IBLOCK_ne_bmapstart hi), blank_img, update_of_ne hne]
  unfold dinode
  rw [hblk]
  rfl

theorem blank_tree : Tree (fun _ => none) blank := by
  have hrefs : ∀ x, refs .mkfs (dinode .mkfs blank.marked) blank.marked x = 0 := by
    intro x
    by_cases hx : x.1 < Superblock.mkfs.nino
    · exact refs_bare (Or.inl (by rw [blank_dinode hx]; rfl))
    · exact if_neg fun h => hx h.1
  refine ⟨⟨⟨rfl, Nat.le_refl _, by decide, fun b hb _ => ?_, fun _ hb => ?_, fun _ hb => ?_⟩,
    ⟨⟨fun {x} hx => absurd (hrefs x) hx, fun {x} _ hx => absurd (hrefs x) hx,
      fun {b} _ hdata huse => ?_⟩, fun b hb => ?_⟩⟩, fun i hi => blank_dinode hi⟩
  · have hlow : nmeta ≤ b := hb
    have hne : b ≠ 1 := by
      rintro rfl
      exact absurd hlow (by decide)
    exact update_of_ne hne _ _
  · exact absurd hb List.not_mem_nil
  · exact absurd hb List.not_mem_nil
  · rw [inUse_marked (lt_BPB hdata.2)] at huse
    exact absurd (of_decide_eq_true huse) (Nat.not_lt.mpr hdata.1)
  · rw [inUse_marked (Nat.lt_trans hb (by decide))]
    exact decide_eq_true hb

theorem makeRoot_wp (hs : s = blank) : wp E makeRoot
    (fun i s' => i = ROOTINO ∧ Made [] s' ∧ s'.freeblock ≤ nmeta + 4) s := by
  have hone : s.freeinode = ROOTINO := by
    rw [hs]
    rfl
  have htree : Tree (fun _ => none) s := by
    rw [hs]
    exact blank_tree
  unfold makeRoot
  rw [wp_bind]
  refine wp_mono (ialloc_wp htree (by rw [hone]; decide) rfl (by decide)) ?_
  rintro _ s₁ ⟨rfl, htree₁, hfi₁, hinodes₁, hsuper₁, hfb₁⟩
  have hfb₁ : s₁.freeblock = nmeta := by
    rw [hfb₁, hs]
    rfl
  rw [hone] at htree₁ hfi₁ hinodes₁ ⊢
  have hmeta : nmeta + 4 ≤ FSSIZE := by decide
  rw [if_pos rfl, wp_bind]
  have hfirst : chunks 0 (entry ROOTINO [46]).length = 1 := by
    rw [entry_length]
    exact chunks_entry 0
  refine wp_mono (htree₁.iappend_wp (by decide) (update_self _ _ _)
    (Or.inl (by rw [entry_length]; decide)) (Or.inl ?_)) ?_
  · rw [List.length_nil, hfirst, hfb₁]
    omega
  · rintro _ s₂ ⟨htree₂, hkeeps₂, hfb₂⟩
    rw [List.length_nil, hfirst] at hfb₂
    rw [update_idem, List.nil_append] at htree₂
    rw [wp_bind]
    have hsecond : chunks (entry ROOTINO [46]).length (entry ROOTINO [46, 46]).length = 1 := by
      rw [entry_length, entry_length]
      exact chunks_entry 1
    refine wp_mono (htree₂.iappend_wp (by decide) (update_self _ _ _)
      (Or.inl (by rw [entry_length, entry_length]; decide)) (Or.inl ?_)) ?_
    · rw [hsecond]
      omega
    · rintro _ s' ⟨htree', hkeeps', hfb'⟩
      rw [hsecond] at hfb'
      rw [update_idem] at htree'
      refine ⟨rfl, ⟨⟨htree'.rest, fun i hi => ?_⟩, ?_, ?_, ?_⟩, by omega⟩
      · have hnode := htree'.node i hi
        match i with
        | 0 => exact hnode
        | 1 =>
          unfold node rootData entries
          rw [List.append_nil]
          exact hnode
        | j + 2 => exact hnode
      · rw [hkeeps'.freeinode, hkeeps₂.freeinode, hfi₁]
        rfl
      · rw [hkeeps'.inodes, hkeeps₂.inodes, hinodes₁, hs]
        rfl
      · rw [hkeeps'.super, hkeeps₂.super, hsuper₁, hs, blank_img, update_self]

def rootSize (files : List Input) : ℕ := ((rootData files).length / BSIZE + 1) * BSIZE

/-- The image at the end. -/
structure Formatted (files : List Input) (s : Image) : Prop where
  fresh : Fresh s
  disk : s.marked = s.img
  own : Owned .mkfs (dinode .mkfs s.img) s.img
  inodes : s.inodes = List.range' 1 (files.length + 1)
  freeinode : s.freeinode = files.length + 2
  super : s.img 1 = sbBytes .mkfs
  root : ∃ di, di.attr = newAttr T_DIR ∧ Holds s.img di (rootData files) ∧
    dinode .mkfs s.img ROOTINO = { di with size := BitVec.ofNat 32 (rootSize files) }
  node : ∀ i < Superblock.mkfs.nino, i ≠ ROOTINO → Is s.img (dinode .mkfs s.img i) (node files i)

/-- Changing the size of an inode does not change who owns which block. -/
theorem own_setSize {n : BitVec 32} (h : Rest s) (hi : inum < Superblock.mkfs.nino)
    (hdi : di = { dinode .mkfs s.marked inum with size := n }) :
    Owned .mkfs (dinode .mkfs (setDinode .mkfs s.marked inum di)) (setDinode .mkfs s.marked inum di) := by
  have hT : ∀ j, (dinode .mkfs (setDinode .mkfs s.marked inum di) j).type =
      (dinode .mkfs s.marked j).type ∧ (dinode .mkfs (setDinode .mkfs s.marked inum di) j).addrs =
      (dinode .mkfs s.marked j).addrs := by
    intro j
    rw [dinode_setDinode]
    by_cases e : j = inum
    · rw [if_pos e, e, hdi]
      exact ⟨rfl, rfl⟩
    · rw [if_neg e]
      exact ⟨rfl, rfl⟩
  have huse : ∀ b, inUse .mkfs (setDinode .mkfs s.marked inum di) b = inUse .mkfs s.marked b :=
    fun b => inUse_congr (setDinode_of_ne (IBLOCK_ne_BBLOCK hi).symm)
  refine ⟨h.own.exact.congr (refs_congr (fun j _ => by rw [(hT j).1]) (fun j _ _ => (hT j).2)
    fun j hj ht h0 => ?_) fun b _ => huse b, fun b hb => ?_⟩
  · obtain ⟨-, hdata, -⟩ := h.own.indirect hj ht h0
    exact setDinode_of_ne (layout_mkfs.ne_IBLOCK hdata hi)
  · rw [huse]
    exact h.own.area b hb

theorem finish_wp (h : Made files s) : wp E (finish ROOTINO) (fun _ s' => Formatted files s' ∧
    s'.freeblock = s.freeblock) s := by
  have hi : ROOTINO < Superblock.mkfs.nino := by decide
  have hnode := h.tree.node ROOTINO hi
  obtain ⟨hattr, htype, hc⟩ := hnode
  have hrest := h.tree.rest
  unfold finish
  rw [wp_bind]
  refine wp_rinode hrest.fresh hi ?_
  rw [wp_bind]
  refine wp_winode hrest.fresh hi ?_
  rw [hc.size]
  generalize hdi : { dinode .mkfs s.marked ROOTINO with
    size := BitVec.ofNat 32 (((rootData files).length / BSIZE + 1) * BSIZE) } = di
  have hfresh : Fresh (s.setInode ROOTINO di) := hrest.fresh.setInode hi
  have hused : (s.setInode ROOTINO di).freeblock < BSIZE * 8 :=
    Nat.lt_of_le_of_lt hfresh.high (by decide)
  have hmarked : (s.setInode ROOTINO di).marked = setDinode .mkfs s.marked ROOTINO di :=
    setInode_marked hi
  rw [wp_bind, wp_get]
  unfold balloc
  rw [if_pos hused]
  refine wp_wsect hfresh.nsect (by decide) ?_
  -- the free map of the image is now the one that the counter stands for
  obtain ⟨s', hs'⟩ : ∃ s', s' = (s.setInode ROOTINO di).put Superblock.mkfs.bmapstart
      (bitmap (s.setInode ROOTINO di).freeblock) := ⟨_, rfl⟩
  rw [← hs']
  have himg : s'.img = (s.setInode ROOTINO di).marked := by
    rw [hs']
    rfl
  have hsame : s'.marked = s'.img := by
    unfold Image.marked
    rw [himg, hs']
    exact update_idem _ _ _
  have hdin : ∀ j, dinode .mkfs s'.img j =
      if j = ROOTINO then di else dinode .mkfs s.marked j := by
    intro j
    rw [himg, hmarked, dinode_setDinode]
  have hfiles : ∀ j < Superblock.mkfs.nino, (dinode .mkfs s.marked j).type ≠ T_FREE →
      SameFile s.marked s'.img (dinode .mkfs s.marked j) := by
    intro j hj ht
    rw [himg, hmarked]
    exact sameFile_setDinode layout_mkfs hrest.own hi hj ht
  have hkeeps : Keeps s (s.setInode ROOTINO di) := keeps_setInode
  refine ⟨⟨?_, hsame, ?_, ?_, ?_, ?_, ?_, fun j hj hne => ?_⟩, by rw [hs']; rfl⟩
  · rw [hs']
    refine ⟨hfresh.nsect, hfresh.low, hfresh.high, fun b hb hb' => ?_, hfresh.winodes,
      hfresh.assigned⟩
    have hne : b ≠ Superblock.mkfs.bmapstart := data_ne_bmapstart ⟨Nat.le_trans hfresh.low hb, hb'⟩
    exact (update_of_ne hne _ _).trans (hfresh.zero b hb hb')
  · rw [himg, hmarked]
    exact own_setSize hrest hi hdi.symm
  · rw [hs']
    exact h.inodes
  · rw [hs']
    exact h.freeinode
  · rw [himg, marked_of_ne (by decide), hkeeps.super, h.super]
  · refine ⟨_, hattr, hc.same (hfiles _ hi ?_), ?_⟩
    · rw [← hattr] at htype
      exact htype
    · rw [hdin, if_pos rfl, ← hdi]
      rfl
  · rw [hdin, if_neg hne]
    exact (h.tree.node j hj).same (hfiles j hj)

/-- `mkfs` with files that the inode blocks have room for. -/
theorem mkfs_wp (hs : s = start) (hn : files.length ≤ 206)
    (hE : (∀ f ∈ files, f.Good) ∧ nmeta + 4 + need files ≤ FSSIZE ∨ ∀ e, E e) :
    wp E (mkfs files) (fun _ s' => Formatted files s') s := by
  unfold mkfs
  generalize hsize : FSSIZE = n
  rw [wp_bind]
  refine zeroAll_wp (Nat.le_of_eq hsize.symm) (by rw [hs]; rfl) (by rw [hs]; rfl) ?_
  rw [← hsize, wp_bind]
  refine wp_wsect rfl (by decide) ?_
  rw [wp_bind]
  refine wp_mono (makeRoot_wp (by rw [hs]; rfl)) ?_
  rintro _ s₁ ⟨rfl, hmade, hfb⟩
  rw [wp_bind]
  refine wp_mono (addFiles_wp hmade (by rw [List.length_nil]; omega) (hE.imp_left fun hE => ?_)) ?_
  · exact ⟨hE.1, by have := hE.2; omega⟩
  · rintro _ s₂ ⟨hmade₂, -⟩
    exact wp_mono (finish_wp hmade₂) fun _ _ h => h.1

end DuckoUnix.Mkfs
