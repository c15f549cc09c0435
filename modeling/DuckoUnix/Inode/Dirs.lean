import DuckoUnix.Fs.Dirs
import DuckoUnix.Inode.Logic

/-!
# The code on directories

What `dirlookup` and `dirlink` do to a directory that the process has locked, in terms of the map from
names to inode numbers of `Fs.Dirs`.
-/

namespace DuckoUnix.Inode

open Lib Fs

variable {R : Rules} {g : Ghost} {dp ip : Ip} {i k off : ℕ} {a : Attr} {n : Node}
  {name : List (BitVec 8)} {α : Type}

structure Entries (d : List (BitVec 8)) : Prop where
  whole : DIRENT ∣ d.length
  small : d.length ≤ MAXFILE * BSIZE

theorem MAXFILE_BSIZE : MAXFILE * BSIZE = 71680 := rfl

/-! ## Reading -/

theorem readi_wp {m : ℕ} {input : Option (List (BitVec 8))}
    {Q : Option (List (BitVec 8)) → Ghost → Prop} (hi : (ip, i) ∈ g.refs)
    (h : g.held ip = some (.known a n)) (ht : a.type ≠ T_DEV)
    (hQ : Q (if n.data.length < off ∨ (off + m) % UINT < off then none
      else some ((n.data.drop off).take m)) g) : (readi ip off m input).wp R.spec Q g := by
  unfold readi
  rw [Thread.wp_bind]
  refine look_wp hi h fun f _ hf => ?_
  dsimp only
  rw [hf, if_neg ht]
  refine op_wp ⟨a, n, h⟩ fun r g' hpost => ?_
  obtain ⟨rfl, rfl⟩ := hpost a n h
  exact hQ

/-- The process has locked the directory `dp`. -/
structure Ghost.Dir (g : Ghost) (dp : Ip) (i : ℕ) (a : Attr) (n : Node) : Prop where
  mem : (dp, i) ∈ g.refs
  held : g.held dp = some (.known a n)
  type : a.type = T_DIR
  entries : Entries n.data

theorem readDirent_wp {e : Panic} {Q : Dirent → Ghost → Prop} (h : g.Dir dp i a n)
    (hk : k < nent n.data) (hQ : Q (dirent n.data k) g) :
    (readDirent dp (k * DIRENT) e).wp R.spec Q g := by
  have hsmall := h.entries.small
  have hlen : ((n.data.drop (k * DIRENT)).take DIRENT).length = DIRENT := by
    rw [List.length_take, List.length_drop]
    unfold nent DIRENT at *
    omega
  have hok : ¬ (n.data.length < k * DIRENT ∨ (k * DIRENT + DIRENT) % UINT < k * DIRENT) := by
    rw [MAXFILE_BSIZE] at hsmall
    unfold nent DIRENT UINT at *
    rw [Nat.mod_eq_of_lt (by omega)]
    omega
  unfold readDirent
  rw [Thread.wp_bind]
  refine readi_wp h.mem h.held (by rw [h.type]; decide) ?_
  rw [if_neg hok]
  dsimp only
  rw [if_neg fun h => h hlen]
  exact hQ

/-! ## Looking up a name -/

/-- The loop of `dirlookup` up to the call of `iget`. -/
def scanLoop (dp : Ip) (name : List (BitVec 8)) : ℕ → ℕ → T (Option (ℕ × ℕ))
  | 0, _ => return none
  | k + 1, off => do
    if off < (← size dp) then
      let de ← readDirent dp off .dirlookupRead
      if de.inum ≠ 0 ∧ namecmp name de.name = 0 then return some (de.inum.toNat, off)
      else scanLoop dp name k (off + DIRENT)
    else return none

/-- `dirlookup` up to the call of `iget`. -/
def scan (dp : Ip) (name : List (BitVec 8)) : T (Option (ℕ × ℕ)) := do
  if (← look dp).attr.type ≠ T_DIR then panic .notDir
  scanLoop dp name ((← size dp) / DIRENT + 1) 0

def found : Option (ℕ × ℕ) → T (Option (Ip × ℕ))
  | none => return none
  | some (i, off) => return some (← iget i, off)

theorem dirlookupLoop_eq (dp : Ip) (name : List (BitVec 8)) (k off : ℕ) :
    dirlookupLoop dp name k off = scanLoop dp name k off >>= found := by
  induction k generalizing off with
  | zero => rfl
  | succ k ih =>
    unfold dirlookupLoop scanLoop
    rw [Thread.bind_bind]
    refine congrArg _ (funext fun sz => ?_)
    by_cases h : off < sz
    · rw [if_pos h, if_pos h, Thread.bind_bind]
      refine congrArg _ (funext fun de => ?_)
      by_cases h' : de.inum ≠ 0 ∧ namecmp name de.name = 0
      · rw [if_pos h', if_pos h']
        rfl
      · rw [if_neg h', if_neg h', ih]
    · rw [if_neg h, if_neg h]
      rfl

theorem dirlookup_eq (dp : Ip) (name : List (BitVec 8)) :
    dirlookup dp name = scan dp name >>= found := by
  unfold dirlookup scan
  rw [Thread.bind_bind]
  refine congrArg _ (funext fun f => ?_)
  have hrest : (size dp >>= fun sz => dirlookupLoop dp name (sz / DIRENT + 1) 0) =
      (size dp >>= fun sz => scanLoop dp name (sz / DIRENT + 1) 0) >>= found := by
    rw [Thread.bind_bind]
    exact congrArg _ (funext fun sz => dirlookupLoop_eq dp name _ _)
  by_cases h : f.attr.type ≠ T_DIR
  · rw [if_pos h, if_pos h, Thread.bind_bind, hrest]
  · rw [if_neg h, if_neg h]
    exact hrest

theorem scanLoop_wp {Q : Option (ℕ × ℕ) → Ghost → Prop} (h : g.Dir dp i a n) {m : ℕ}
    (hm : nent n.data < k + m) (hbefore : ∀ j < k, ¬ (dirent n.data j).Is name)
    (hQ : Q ((find n.data name).map fun k => ((dirent n.data k).inum.toNat, k * DIRENT)) g) :
    (scanLoop dp name m (k * DIRENT)).wp R.spec Q g := by
  induction m generalizing k with
  | zero =>
    have hnone : find n.data name = none := find_eq_none.mpr fun j hj => hbefore j (by omega)
    rw [hnone] at hQ
    exact hQ
  | succ m ih =>
    unfold scanLoop
    rw [Thread.wp_bind]
    refine size_wp h.held ?_
    have hwhole := h.entries.whole
    by_cases hk : k < nent n.data
    · rw [if_pos (by unfold nent DIRENT at *; omega), Thread.wp_bind]
      refine readDirent_wp h hk ?_
      by_cases his : (dirent n.data k).Is name
      · have hsome : find n.data name = some k := find_eq_some.mpr ⟨hk, his, hbefore⟩
        rw [hsome] at hQ
        rw [if_pos (show (dirent n.data k).inum ≠ 0 ∧ _ from his)]
        exact hQ
      · rw [if_neg (show ¬ ((dirent n.data k).inum ≠ 0 ∧ _) from his), show k * DIRENT + DIRENT = (k + 1) * DIRENT from (Nat.succ_mul _ _).symm]
        refine ih (by omega) fun j hj => ?_
        by_cases e : j = k
        · rw [e]
          exact his
        · exact hbefore j (by omega)
    · have hnone : find n.data name = none := find_eq_none.mpr fun j hj => hbefore j (by omega)
      rw [if_neg (by unfold nent DIRENT at *; omega)]
      rw [hnone] at hQ
      exact hQ

/-- `dirlookup` finds what the directory maps the name to. -/
theorem scan_wp {Q : Option (ℕ × ℕ) → Ghost → Prop} (h : g.Dir dp i a n)
    (hQ : Q ((find n.data name).map fun k => ((dirent n.data k).inum.toNat, k * DIRENT)) g) :
    (scan dp name).wp R.spec Q g := by
  unfold scan
  rw [Thread.wp_bind]
  refine look_wp h.mem h.held fun f _ hf => ?_
  rw [hf, if_neg fun ht => ht h.type, Thread.wp_bind]
  refine size_wp h.held ?_
  have hstart := scanLoop_wp (R := R) (k := 0) (m := n.data.length / DIRENT + 1) h
    (by unfold nent; omega) (fun j hj => absurd hj (Nat.not_lt_zero j)) hQ
  rwa [Nat.zero_mul] at hstart

theorem dirlookup_wp {Q : Option (Ip × ℕ) → Ghost → Prop} (h : g.Dir dp i a n)
    (hinum : ∀ j, lookup n.data name = some j → j < R.sb.nino) (hroom : R.Room g)
    (hnone : find n.data name = none → Q none g)
    (hsome : ∀ k ip, find n.data name = some k →
      (∀ jp j, (jp, j) ∈ g.refs → (jp = ip ↔ j = (dirent n.data k).inum.toNat)) →
      Q (some (ip, k * DIRENT)) (g.take ip (dirent n.data k).inum.toNat)) :
    (dirlookup dp name).wp R.spec Q g := by
  rw [dirlookup_eq, Thread.wp_bind]
  refine scan_wp h ?_
  cases hf : find n.data name with
  | none => exact hnone hf
  | some k =>
    rw [Option.map_some]
    unfold found
    rw [Thread.wp_bind]
    have hlt := hinum (dirent n.data k).inum.toNat (by unfold lookup; rw [hf]; rfl)
    exact iget_wp hlt hroom fun ip hip => hsome k ip hf hip

/-! ## Adding an entry -/

theorem writei_wp {src : List (BitVec 8)} {Q : Option ℕ → Ghost → Prop} (htx : g.tx = true)
    (hi : (ip, i) ∈ g.refs) (h : g.held ip = some (.known a n)) (ht : a.type ≠ T_DEV)
    (hfar : TooFar n.data off src.length → Q none g)
    (hQ : ¬ TooFar n.data off src.length → Q (some src.length) (g.write ip i a n src off)) :
    (writei ip src off).wp R.spec Q g := by
  unfold writei
  rw [Thread.wp_bind]
  refine look_wp hi h fun f _ hf => ?_
  dsimp only
  rw [hf, if_neg ht]
  refine op_wp ⟨htx, ⟨i, hi⟩, a, n, h⟩ fun r g' hpost => ?_
  have hpost' := hpost i a n hi h
  by_cases hf : TooFar n.data off src.length
  · rw [if_pos hf] at hpost'
    obtain ⟨rfl, rfl⟩ := hpost'
    exact hfar hf
  · rw [if_neg hf] at hpost'
    obtain ⟨rfl, rfl⟩ := hpost'
    exact hQ hf

/-- The first place for a new entry. -/
structure FirstVacant (d : List (BitVec 8)) (k : ℕ) : Prop where
  vacant : Vacant d k
  first : ∀ j < k, (dirent d j).inum ≠ 0

theorem emptyDirent_wp {Q : ℕ → Ghost → Prop} (h : g.Dir dp i a n) {m : ℕ}
    (hm : nent n.data < k + m) (hk : k ≤ nent n.data) (hbefore : ∀ j < k, (dirent n.data j).inum ≠ 0)
    (hQ : ∀ k, FirstVacant n.data k → Q (k * DIRENT) g) :
    (emptyDirent dp m (k * DIRENT)).wp R.spec Q g := by
  induction m generalizing k with
  | zero => omega
  | succ m ih =>
    unfold emptyDirent
    rw [Thread.wp_bind]
    refine size_wp h.held ?_
    have hwhole := h.entries.whole
    by_cases hlt : k < nent n.data
    · rw [if_pos (by unfold nent DIRENT at *; omega), Thread.wp_bind]
      refine readDirent_wp h hlt ?_
      by_cases hz : (dirent n.data k).inum = 0
      · rw [if_pos hz]
        exact hQ k ⟨⟨hk, fun _ => hz⟩, hbefore⟩
      · rw [if_neg hz, show k * DIRENT + DIRENT = (k + 1) * DIRENT from (Nat.succ_mul _ _).symm]
        refine ih (by omega) hlt fun j hj => ?_
        by_cases e : j = k
        · rw [e]
          exact hz
        · exact hbefore j (by omega)
    · rw [if_neg (by unfold nent DIRENT at *; omega)]
      exact hQ k ⟨⟨hk, fun h => absurd h hlt⟩, hbefore⟩

def newDirent (name : List (BitVec 8)) (inum : ℕ) : Dirent :=
  ⟨BitVec.ofNat 16 inum, strncpy name DIRSIZ⟩

theorem length_newDirent (name : List (BitVec 8)) (inum : ℕ) :
    (newDirent name inum).bytes.length = DIRENT := by
  unfold Dirent.bytes newDirent
  rw [List.length_append, length_strncpy]
  rfl

/-- There is no room for a new entry in place `k`. -/
theorem tooFar_vacant (h : Entries n.data) (hk : Vacant n.data k) :
    TooFar n.data (k * DIRENT) DIRENT ↔ k = nent n.data ∧ n.data.length = MAXFILE * BSIZE := by
  obtain ⟨⟨m, hm⟩, hsmall⟩ := h
  have hle := hk.1
  unfold TooFar nent UINT DIRENT at *
  rw [MAXFILE_BSIZE] at *
  rw [Nat.mod_eq_of_lt (by omega)]
  omega

/-- `dirlink` finds the name, or writes an entry to the first place that is empty. -/
theorem dirlink_wp {inum : ℕ} {Q : Bool → Ghost → Prop} (h : g.Dir dp i a n) (htx : g.tx = true)
    (hinum : ∀ j, lookup n.data name = some j → j < R.sb.nino) (hroom : R.Room g)
    (hfound : ∀ k ip, find n.data name = some k →
      (∀ jp j, (jp, j) ∈ g.refs → (jp = ip ↔ j = (dirent n.data k).inum.toNat)) →
      (iput ip).wp R.spec (fun _ => Q false) (g.take ip (dirent n.data k).inum.toNat))
    (hfull : ∀ k, find n.data name = none → FirstVacant n.data k → k = nent n.data →
      n.data.length = MAXFILE * BSIZE → R.Panics .dirlink)
    (hlink : ∀ k, find n.data name = none → FirstVacant n.data k →
      ¬ TooFar n.data (k * DIRENT) DIRENT →
      Q true (g.write dp i a n (newDirent name inum).bytes (k * DIRENT))) :
    (dirlink dp name inum).wp R.spec Q g := by
  unfold dirlink
  rw [Thread.wp_bind]
  refine dirlookup_wp h hinum hroom (fun hnone => ?_) fun k ip hk hip => ?_
  · dsimp only
    rw [Thread.wp_bind]
    refine size_wp h.held ?_
    rw [Thread.wp_bind]
    have hstart : (emptyDirent dp (n.data.length / DIRENT + 1) (0 * DIRENT)).wp R.spec
        (fun off g' => (do
          if (← writei dp (newDirent name inum).bytes off) ≠ some DIRENT then panic .dirlink
          return true : T Bool).wp R.spec Q g') g := by
      refine emptyDirent_wp h (by unfold nent; omega) (Nat.zero_le _)
        (fun j hj => absurd hj (Nat.not_lt_zero j)) fun k hk => ?_
      rw [Thread.wp_bind]
      refine writei_wp htx h.mem h.held (by rw [h.type]; decide) (fun hfar => ?_) fun hok => ?_
      · rw [length_newDirent, tooFar_vacant h.entries hk.vacant] at hfar
        rw [if_pos (fun h => nomatch h), Thread.wp_bind]
        exact panic_wp (hfull k hnone hk hfar.1 hfar.2)
      · rw [length_newDirent] at hok ⊢
        rw [if_neg fun h => h rfl]
        exact hlink k hnone hk hok
    rwa [Nat.zero_mul] at hstart
  · dsimp only
    rw [Thread.wp_bind]
    exact hfound k ip hk hip

end DuckoUnix.Inode
