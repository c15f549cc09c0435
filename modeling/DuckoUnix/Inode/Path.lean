import DuckoUnix.Inode.Dirs

/-!
# Looking up paths

`namex` of a process that nobody interrupts: it looks up the components of the path one after the
other, and when it returns the process owns a reference to what was found and nothing else. The locks
and references that it takes on the way are given back; none of them is the last one to an inode
without links.
-/

namespace DuckoUnix.Inode

open Lib Fs

variable {R : Rules} {g : Ghost} {A : Alone} {ip jp dp : Ip} {i j k : ℕ} {n : Node}
  {name path : List (BitVec 8)} {names : List (List (BitVec 8))}

/-! ## The inode of a path -/

/-- The inode that is found by looking up names one after the other, from inode `i` on. -/
def walk (N : ℕ → Node) : ℕ → List (List (BitVec 8)) → Option ℕ
  | i, [] => some i
  | i, name :: names =>
    if (N i).attr.type = T_DIR then (lookup (N i).data name).bind fun j => walk N j names else none

/-- The directory in which the last name is looked up, and this name. -/
def walkParent (N : ℕ → Node) : ℕ → List (List (BitVec 8)) → Option (ℕ × List (BitVec 8))
  | _, [] => none
  | i, name :: names =>
    if (N i).attr.type = T_DIR then
      if names = [] then some (i, name)
      else (lookup (N i).data name).bind fun j => walkParent N j names
    else none

/-- The inode of a path is found under the last name in its parent directory. -/
theorem walk_eq_walkParent {N : ℕ → Node} (h : names ≠ []) :
    walk N i names = (walkParent N i names).bind fun x => lookup (N x.1).data x.2 := by
  induction names generalizing i with
  | nil => exact absurd rfl h
  | cons name names ih =>
    unfold walk walkParent
    by_cases ht : (N i).attr.type = T_DIR
    · rw [if_pos ht, if_pos ht]
      by_cases hn : names = []
      · rw [if_pos hn, hn]
        exact Option.bind_fun_some _
      · rw [if_neg hn, Option.bind_assoc]
        exact congrArg _ (funext fun j => ih hn)
    · rw [if_neg ht, if_neg ht]
      rfl

/-- What `namex` looks for. -/
def target (N : ℕ → Node) (nameiparent : Bool) (i : ℕ) (names : List (List (BitVec 8))) :
    Option (ℕ × List (BitVec 8)) :=
  if nameiparent = true then walkParent N i names else (walk N i names).map fun j => (j, [])

/-! ## Giving back a reference -/

/-- The contents of a directory are entries of inodes that exist. -/
structure DirOk (sb : Superblock) (d : List (BitVec 8)) : Prop where
  entries : Entries d
  inum : ∀ name j, lookup d name = some j → j < sb.nino

/-- The process runs alone in a transaction and has locked nothing. -/
structure Ghost.Calm (R : Rules) (g : Ghost) (A : Alone) : Prop where
  alone : g.alone = some A
  tx : g.tx = true
  held : ∀ ip, g.held ip = none
  lt : ∀ ip i, (ip, i) ∈ g.refs → i < R.sb.nino
  place : ∀ ip i jp j, (ip, i) ∈ g.refs → (jp, j) ∈ g.refs → (ip = jp ↔ i = j)
  unlinked : ∀ i < R.sb.nino, (A.node i).attr.type ≠ T_FREE → (A.node i).attr.nlink = 0 →
    0 < A.others i ∨ ∃ ip, (ip, i) ∈ g.refs

/-- References to inode `i` are references to place `ip`. -/
def Ghost.Place (g : Ghost) (ip : Ip) (i : ℕ) : Prop := ∀ jp j, (jp, j) ∈ g.refs → (jp = ip ↔ j = i)

namespace Ghost

theorem Place.take (h : g.Place ip i) (hj : jp = ip ↔ j = i) : (g.take jp j).Place ip i := by
  intro kp l hm
  rcases Multiset.mem_cons.mp hm with e | hm
  · cases e
    exact hj
  · exact h kp l hm

namespace Calm

variable (H : g.Calm R A)
include H

theorem place_of_mem (hm : (ip, i) ∈ g.refs) : g.Place ip i :=
  fun jp j hj => H.place jp j ip i hj hm

theorem take (hi : i < R.sb.nino) (hip : g.Place ip i) : (g.take ip i).Calm R A where
  alone := H.alone
  tx := H.tx
  held := H.held
  lt jp j hm := by
    rcases Multiset.mem_cons.mp hm with e | hm
    · cases e
      exact hi
    · exact H.lt jp j hm
  place kp k lp l hk hl := by
    rcases Multiset.mem_cons.mp hk with e | hk
    · cases e
      rcases Multiset.mem_cons.mp hl with e | hl
      · cases e
        exact iff_of_true rfl rfl
      · rw [eq_comm, hip lp l hl, eq_comm]
    · rcases Multiset.mem_cons.mp hl with e | hl
      · cases e
        exact hip kp k hk
      · exact H.place kp k lp l hk hl
  unlinked i hi ht hl :=
    (H.unlinked i hi ht hl).imp_right fun ⟨ip, hm⟩ => ⟨ip, mem_take_of_mem hm⟩

theorem free (ip jp : Ip) (i : ℕ) : R.Free (g.take jp i) ip := Or.inr (Or.inr (H.held ip))

/-- A reference that is taken and dropped again is not the last one to an inode without links. -/
theorem iput_wp {Q : Unit → Ghost → Prop} (hi : i < R.sb.nino) (hip : g.Place ip i) (hQ : Q () g) :
    (iput ip).wp R.spec Q (g.take ip i) := by
  refine Inode.iput_wp mem_take (H.free ip ip i) H.tx (fun _ _ => ?_) fun n _ hseen hlink hone => ?_
  · rw [take_drop]
    exact hQ
  · have hnode := hseen.alone A H.alone
    have hone' := hone A H.alone
    rw [count_take, if_pos rfl] at hone'
    rcases H.unlinked i hi (by rw [hnode]; exact hseen.alloc) (by rw [hnode]; exact hlink) with h | ⟨jp, h⟩
    · omega
    · rw [(hip jp i h).mpr rfl] at h
      have hpos := count_pos h
      omega

theorem iunlockput_wp {Q : Unit → Ghost → Prop} (hi : i < R.sb.nino) (hip : g.Place ip i)
    (hgood : R.Good i n) (hQ : Q () g) :
    (iunlockput ip).wp R.spec Q ((g.take ip i).hold ip (.known n.attr n)) := by
  unfold iunlockput
  rw [Thread.wp_bind]
  refine iunlock_wp mem_take hold_held_self hgood ?_
  have hheld : (g.take ip i).held ip = none := H.held ip
  rw [hold_unlock hheld]
  exact H.iput_wp hi hip hQ

end Calm

end Ghost

/-! ## `namex` -/

/-- The process may look up paths. -/
structure Ghost.Walks (R : Rules) (g : Ghost) (A : Alone) : Prop extends g.Calm R A where
  good : ∀ i n, R.Good i n → n.attr.type = T_DIR → DirOk R.sb n.data
  room : R.Panics .igetNoInodes ∨ (R.inUse g A).card + 1 < NINODE
  typed : R.Panics .noType ∨ ∀ i < R.sb.nino, (A.node i).attr.type = T_DIR → ∀ name j,
    lookup (A.node i).data name = some j → (A.node j).attr.type ≠ T_FREE

theorem Ghost.Walks.room_take (H : g.Walks R A) (ip : Ip) (i : ℕ) : R.Room (g.take ip i) := by
  refine H.room.imp_right fun hlt => ⟨A, H.alone, ?_⟩
  exact Nat.lt_of_le_of_lt (inUse_take_le R g A ip i) hlt

theorem namexLoop_wp {par : Bool} {Q : Option (Ip × List (BitVec 8)) → Ghost → Prop}
    (H : g.Walks R A) (hi : i < R.sb.nino) (hip : g.Place ip i) (hty : R.Typed g i) (hk : path.length < k)
    (hnone : target A.node par i (components path) = none → Q none g)
    (hsome : ∀ jp j name, target A.node par i (components path) = some (j, name) → g.Place jp j →
      Q (some (jp, name)) (g.take jp j)) :
    (namexLoop par k ip path).wp R.spec Q (g.take ip i) := by
  induction k generalizing ip i path with
  | zero => exact absurd hk (Nat.not_lt_zero _)
  | succ k ih =>
    unfold namexLoop
    cases hs : skipelem path with
    | none =>
      rw [components_of_none hs] at hnone hsome
      dsimp only
      cases par with
      | true =>
        rw [if_pos rfl, Thread.wp_bind]
        exact H.iput_wp hi hip (hnone rfl)
      | false =>
        rw [if_neg Bool.false_ne_true]
        exact hsome ip i [] rfl hip
    | some x =>
      obtain ⟨name, rest⟩ := x
      obtain ⟨hcomp, hrest⟩ := components_of_some hs
      rw [hcomp] at hnone hsome
      dsimp only
      rw [Thread.wp_bind]
      refine ilock_wp Ghost.mem_take (H.free ip ip i) hty fun n _ hseen => ?_
      have hnode : A.node i = n := hseen.alone A H.alone
      rw [Thread.wp_bind]
      refine look_wp Ghost.mem_take Ghost.hold_held_self fun f _ hf => ?_
      rw [hf]
      by_cases ht : n.attr.type = T_DIR
      · have hok := H.good i n hseen.good ht
        rw [if_neg (not_not.mpr ht)]
        by_cases hlast : par = true ∧ rest = []
        · -- the directory of the last name
          rw [if_pos hlast, Thread.wp_bind]
          refine iunlock_wp Ghost.mem_take Ghost.hold_held_self hseen.good ?_
          have hheld : (g.take ip i).held ip = none := H.held ip
          rw [Ghost.hold_unlock hheld]
          refine hsome ip i name ?_ hip
          unfold target walkParent
          rw [if_pos hlast.1, hnode, if_pos ht, if_pos (hrest.mpr hlast.2)]
        · have htarget : target A.node par i (name :: components rest) =
              (lookup n.data name).bind fun j => target A.node par j (components rest) := by
            unfold target
            cases par with
            | true =>
              rw [if_pos rfl, walkParent, hnode, if_pos ht,
                if_neg fun e => hlast ⟨rfl, hrest.mp e⟩]
              rfl
            | false =>
              rw [if_neg Bool.false_ne_true, walk, hnode, if_pos ht, Option.map_bind]
              rfl
          rw [htarget] at hnone hsome
          have hdir : ((g.take ip i).hold ip (.known n.attr n)).Dir ip i n.attr n :=
            ⟨Ghost.mem_take, Ghost.hold_held_self, ht, hok.entries⟩
          rw [if_neg hlast, Thread.wp_bind]
          refine dirlookup_wp hdir (hok.inum name) (H.room_take ip i) (fun hfind => ?_)
            fun m jp hfind hjp => ?_
          · have hl : lookup n.data name = none := lookup_eq_none.mpr hfind
            rw [hl] at hnone
            dsimp only
            rw [Thread.wp_bind]
            exact H.iunlockput_wp hi hip hseen.good (hnone rfl)
          · have hl : lookup n.data name = some (dirent n.data m).inum.toNat := by
              unfold lookup
              rw [hfind]
              rfl
            generalize (dirent n.data m).inum.toNat = j at hl hjp ⊢
            rw [hl] at hnone hsome
            have hplace : g.Place jp j := fun kp l hm => hjp kp l (Ghost.mem_take_of_mem hm)
            have hij : ip = jp ↔ i = j := hjp ip i Ghost.mem_take
            have hheld : ((g.take ip i).take jp j).held ip = none := H.held ip
            have hg : (((g.take ip i).hold ip (.known n.attr n)).take jp j).unlock ip =
                (g.take jp j).take ip i := by
              rw [Ghost.take_comm]
              exact Ghost.hold_unlock hheld
            have hty' : R.Typed g j := H.typed.imp_right fun h =>
              ⟨A, H.alone, h i hi (by rw [hnode]; exact ht) name j (by rw [hnode]; exact hl)⟩
            dsimp only
            unfold iunlockput
            rw [Thread.bind_bind, Thread.wp_bind]
            refine iunlock_wp (Ghost.mem_take_of_mem Ghost.mem_take) Ghost.hold_held_self hseen.good ?_
            rw [hg, Thread.wp_bind]
            have hlt : j < R.sb.nino := hok.inum name j hl
            refine (H.take hlt hplace).iput_wp hi (hip.take (by rw [eq_comm, hij, eq_comm])) ?_
            exact ih hlt hplace hty' (by have := skipelem_lt hs; omega) hnone hsome
      · have hno : target A.node par i (name :: components rest) = none := by
          unfold target
          cases par with
          | true => rw [if_pos rfl, walkParent, hnode, if_neg ht]
          | false => rw [if_neg Bool.false_ne_true, walk, hnode, if_neg ht]; rfl
        rw [if_pos ht, Thread.wp_bind]
        exact H.iunlockput_wp hi hip hseen.good (hnone hno)

/-- The inode where the lookup of a path starts; `i` is the one of the working directory. -/
def startOf (path : List (BitVec 8)) (i : ℕ) : ℕ := if path.head? = some slash then ROOTINO else i

/-- `namex` returns what the path leads to, with a reference to it. -/
theorem namex_wp {par : Bool} {cwd : Ip} {Q : Option (Ip × List (BitVec 8)) → Ghost → Prop}
    (H : g.Walks R A) (hcwd : (cwd, i) ∈ g.refs) (hty : R.Typed g (startOf path i))
    (hroot : ROOTINO < R.sb.nino)
    (hnone : target A.node par (startOf path i) (components path) = none → Q none g)
    (hsome : ∀ jp j name, target A.node par (startOf path i) (components path) = some (j, name) →
      g.Place jp j → Q (some (jp, name)) (g.take jp j)) :
    (namex cwd path par).wp R.spec Q g := by
  have hlt : path.length < path.length + 1 := Nat.lt_succ_self _
  unfold startOf at hty hnone hsome
  unfold namex
  dsimp only
  by_cases hs : path.head? = some slash
  · rw [if_pos hs] at hty hnone hsome ⊢
    rw [Thread.wp_bind]
    refine iget_wp hroot ?_ fun ip hip => namexLoop_wp H hroot hip hty hlt hnone hsome
    exact H.room.imp_right fun h => ⟨A, H.alone, by omega⟩
  · rw [if_neg hs] at hty hnone hsome ⊢
    rw [Thread.wp_bind]
    exact idup_wp hcwd (namexLoop_wp H (H.lt cwd i hcwd) (H.place_of_mem hcwd) hty hlt hnone hsome)

end DuckoUnix.Inode
