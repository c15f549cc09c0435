import DuckoUnix.Inode.Alone
import DuckoUnix.Inode.Root

/-!
# A directory is a finite map

`dirlookup`, `dirlink` and the write of `sys_unlink` on the blocks of a directory, for a process that
nobody interrupts. Names are the same if `namecmp` says so. `dirlink` drops the inode that it finds
under the name, and that takes the lock of the inode: if the process holds the lock already, as it does
for the directory itself, `dirlink` does not return.
-/

namespace DuckoUnix.Inode

open Lib Fs Finset

variable {R : Rules} {s s' : Store} {v : View} {g : Ghost} {A : Alone} {dp ip : Ip} {i k : ℕ} {a : Attr}
  {n : Node} {name : List (BitVec 8)} {r r' : Option ℕ} {α β : Type}

/-! ## Room in the inode cache -/

/-- `iget` finds the inode or an empty place. -/
theorem iget_code (hempty : ∃ ip, (s.icache ip).ref = 0) (i : ℕ) :
    ∃ ip s', (iget i).code s = .ok (ip, s') ∧ (s'.icache ip).inum = i := by
  have hcode : (iget i).code = Fs.iget i := Thread.alone_op _ _
  rw [hcode, iget_eq]
  cases hc : cached s i with
  | some ip =>
    have hi := List.find?_some hc
    rw [decide_eq_true_eq] at hi
    refine ⟨ip, _, rfl, ?_⟩
    rw [put_self]
    exact hi.2
  | none =>
    cases he : Fs.empty s with
    | none =>
      obtain ⟨ip, h0⟩ := hempty
      have := List.find?_eq_none.mp he ip (List.mem_finRange ip)
      exact absurd h0 (by simpa using this)
    | some ip =>
      refine ⟨ip, _, rfl, ?_⟩
      rw [put_self]

/-! ## Looking up -/

/-- `dirlookup` of the name returns an inode with number `r`, or none. -/
def Gives (s : Store) (dp : Ip) (name : List (BitVec 8)) (r : Option ℕ) : Prop :=
  ∃ x s', (dirlookup dp name).code s = .ok (x, s') ∧ x.map (fun p => (s'.icache p.1).inum) = r

theorem Gives.unique (h : Gives s dp name r) (h' : Gives s dp name r') : r = r' := by
  obtain ⟨x, t, hx, rfl⟩ := h
  obtain ⟨x', t', hx', rfl⟩ := h'
  rw [hx] at hx'
  cases hx'
  rfl

/-- What `dirlookup` returns changes at one name only. -/
theorem gives_iff {name' : List (BitVec 8)} {r'' : Option ℕ}
    (h' : Gives s' dp name' (if nameOf name' = nameOf name then r' else r)) (h : Gives s dp name' r) :
    Gives s' dp name' r'' ↔ if namecmp name' name = 0 then r'' = r' else Gives s dp name' r'' := by
  by_cases e : nameOf name' = nameOf name
  · rw [if_pos e] at h'
    rw [if_pos (namecmp_eq_zero.mpr e)]
    exact ⟨fun hx => hx.unique h', fun hx => hx ▸ h'⟩
  · rw [if_neg e] at h'
    rw [if_neg fun hc => e (namecmp_eq_zero.mp hc)]
    exact ⟨fun hx => hx.unique h' ▸ h, fun hx => hx.unique h ▸ h'⟩

/-- A process that runs alone and has locked a directory. -/
structure Inside (R : Rules) (s : Store) (v : View) (g : Ghost) (A : Alone) (dp : Ip) (i : ℕ) (a : Attr)
    (n : Node) : Prop where
  rep : Rep s v
  stands : Stands R v g
  alone : g.alone = some A
  dir : g.Dir dp i a n

def entries (s : Store) (dp : Ip) : List (BitVec 8) := content s.disk (s.icache dp).din

namespace Inside

variable (h : Inside R s v g A dp i a n)
include h

theorem entries_eq : entries s dp = n.data := by
  obtain ⟨hval, -, hn, -⟩ := h.stands.known dp a n h.dir.held
  have hr := Nat.lt_of_lt_of_le (Ghost.count_pos h.dir.mem) (h.stands.count dp)
  rw [← hn, h.rep.data ⟨hr, hval⟩]
  rfl

theorem exists_empty (hroom : (R.inUse g A).card < NINODE) : ∃ ip, (s.icache ip).ref = 0 := by
  obtain ⟨ip, h0⟩ := h.stands.own.exists_empty (p := none) h.alone hroom
  rw [h.rep.ent] at h0
  exact ⟨ip, h0⟩

theorem gives (hno : ∀ e, ¬ R.Panics e) (hroom : (R.inUse g A).card < NINODE)
    (name : List (BitVec 8)) : Gives s dp name (lookup n.data name) := by
  have hscan : (scan dp name).wp R.spec (fun r g' =>
      (r = (find n.data name).map (fun k => ((dirent n.data k).inum.toNat, k * DIRENT)) ∧ g' = g) ∧
        ∀ A', g'.alone = some A' → A'.spent ≤ A.spent + 0) g := by
    refine scan_wp h.dir ⟨⟨rfl, rfl⟩, fun A' hA' => ?_⟩
    rw [h.alone] at hA'
    cases hA'
    exact Nat.le_refl _
  obtain ⟨_, s', hs', -, v', hrep', _, ⟨rfl, rfl⟩, H'⟩ :=
    h.stands.wp_room (scan dp name) h.rep h.alone (Nat.zero_le _) hno hscan
  have hempty := Inside.exists_empty ⟨hrep', H', h.alone, h.dir⟩ hroom
  have hcode := code_bind_ok hs' found
  rw [← dirlookup_eq] at hcode
  unfold lookup
  cases hf : find n.data name with
  | none =>
    rw [hf] at hcode
    exact ⟨none, s', hcode, rfl⟩
  | some k =>
    obtain ⟨ip, s'', hip, hinum⟩ := iget_code hempty (dirent n.data k).inum.toNat
    rw [hf] at hcode
    exact ⟨some (ip, k * DIRENT), s'', hcode.trans (code_bind_ok hip _), congrArg some hinum⟩

end Inside

/-! ## Adding and clearing entries -/

structure WellFormed (sb : Superblock) (d : List (BitVec 8)) : Prop where
  entries : Entries d
  inum : ∀ k < nent d, (dirent d k).inum.toNat < sb.nino
  distinct : DistinctNames d

/-- A process that nobody interrupts has locked a well-formed directory in a transaction, and there is
space: for an entry, for the blocks it may need, and for two inodes in the cache. -/
structure DirReady (s : Store) (dp : Ip) : Prop where
  settled : Settled s
  tx : 0 < s.outstanding
  locked : (s.icache dp).locked = true
  valid : (s.icache dp).valid = true
  type : (s.icache dp).din.type = T_DIR
  wf : WellFormed s.sb (entries s dp)
  slot : (∃ k < nent (entries s dp), (dirent (entries s dp) k).inum = 0) ∨
    (entries s dp).length < MAXFILE * BSIZE
  blocks : 2 ≤ nfree s.sb s.disk
  places : ∃ ip jp, ip ≠ jp ∧ (s.icache ip).ref = 0 ∧ (s.icache jp).ref = 0

/-- Entry `k` is in use and has the name: both have the same first bytes, up to a zero. -/
def Named (d : List (BitVec 8)) (k : ℕ) (name : List (BitVec 8)) : Prop :=
  k < nent d ∧ (dirent d k).inum ≠ 0 ∧ nameOf (dirent d k).name = nameOf name

/-- What `dirlink` should do. -/
def LinkSpec (s : Store) (dp : Ip) (name : List (BitVec 8)) (inum : ℕ) : Prop :=
  ∃ r s', (dirlink dp name inum).code s = .ok (r, s') ∧
    ((∃ k, Named (entries s dp) k name) → r = false ∧ entries s' dp = entries s dp) ∧
    ((¬ ∃ k, Named (entries s dp) k name) → r = true ∧ ∀ name' x,
      Gives s' dp name' x ↔ if namecmp name' name = 0 then x = some inum else Gives s dp name' x)

/-- The entry with the name is the one of an inode that the process has locked. -/
def FindsLocked (s : Store) (dp : Ip) (name : List (BitVec 8)) : Prop :=
  ∃ k ip, Named (entries s dp) k name ∧ (s.icache ip).locked = true ∧
    (s.icache ip).inum = (dirent (entries s dp) k).inum.toNat

/-- What writing zeros to the entry that was found should do. -/
def ClearSpec (s : Store) (dp : Ip) (name : List (BitVec 8)) : Prop :=
  (∃ k, Named (entries s dp) k name) → ∃ ip off s₁ s₂,
    (dirlookup dp name).code s = .ok (some (ip, off), s₁) ∧
    (writei dp (List.replicate DIRENT 0) off).code s₁ = .ok (some DIRENT, s₂) ∧
    ∀ name' x, Gives s₂ dp name' x ↔ if namecmp name' name = 0 then x = none else Gives s dp name' x

theorem named_iff {d : List (BitVec 8)} (hd : DistinctNames d) :
    Named d k name ↔ find d name = some k := by
  rw [find_eq_some]
  constructor
  · rintro ⟨hk, hne, hname⟩
    refine ⟨hk, ⟨hne, namecmp_eq_zero.mpr hname.symm⟩, fun j hj his => ?_⟩
    have := hd j (by omega) k hk his.1 hne ((namecmp_eq_zero.mp his.2).symm.trans hname.symm)
    omega
  · rintro ⟨hk, his, -⟩
    exact ⟨hk, his.1, (namecmp_eq_zero.mp his.2).symm⟩

theorem not_named {d : List (BitVec 8)} (hd : DistinctNames d) :
    (¬ ∃ k, Named d k name) ↔ find d name = none := by
  simp only [named_iff hd]
  cases find d name with
  | none => exact iff_of_true (fun ⟨k, h⟩ => nomatch h) rfl
  | some k => exact iff_of_false (fun h => h ⟨k, rfl⟩) (fun h => nomatch h)

/-- No panics, or waiting for ever only. -/
def quiet (s : Store) (wait : Prop) : Rules := ⟨s.sb, fun _ _ => True, fun e => wait ∧ e = .deadlock⟩

namespace DirReady

variable (h : DirReady s dp)
include h

theorem inside (wait : Prop) : Inside (quiet s wait) s (view s) (process s)
    (Alone.of (view s) (locks s)) dp (s.icache dp).inum (s.icache dp).din.attr ((view s).nodeOf dp) := by
  have hrep := h.settled.consistent.rep
  refine ⟨hrep, h.settled.stands rfl fun _ _ => trivial, rfl, mem_locks.mpr ⟨h.locked, rfl⟩,
    locks_held h.locked h.valid, h.type, ?_⟩
  rw [hrep.data ⟨h.settled.locked dp h.locked, h.valid⟩]
  exact h.wf.entries

theorem two_places (wait : Prop) :
    ((quiet s wait).inUse (process s) (Alone.of (view s) (locks s))).card + 2 ≤ NINODE := by
  have hle := (h.inside wait).stands.inUse_card_le rfl
  have hcard := TwoPlaces.card h.places
  omega

end DirReady

theorem chunks_dirent (k : ℕ) : chunks (k * DIRENT) DIRENT = 1 := by
  unfold chunks DIRENT BSIZE
  rw [if_neg (by decide)]
  omega

/-- The directory after an entry was written. -/
theorem Ghost.Dir.write {src : List (BitVec 8)} (h : g.Dir dp i a n) (hk : k ≤ nent n.data)
    (hsrc : src.length = DIRENT) (hfar : ¬ TooFar n.data (k * DIRENT) DIRENT) :
    (g.write dp i a n src (k * DIRENT)).Dir dp i a (n.write a src (k * DIRENT)) := by
  refine ⟨h.mem, Ghost.hold_held_self, h.type, ?_, ?_⟩
  · obtain ⟨m, hm⟩ := h.entries.whole
    have hle : k * DIRENT ≤ n.data.length := by
      unfold nent DIRENT at *
      omega
    show DIRENT ∣ (patch n.data (k * DIRENT) src).length
    rw [length_patch src hle, hsrc]
    refine ⟨max m (k + 1), ?_⟩
    unfold DIRENT at *
    omega
  · have hle : k * DIRENT ≤ n.data.length := by
      unfold nent DIRENT at *
      omega
    show (patch n.data (k * DIRENT) src).length ≤ _
    rw [length_patch src hle, hsrc]
    have hsmall := h.entries.small
    unfold TooFar at hfar
    omega

theorem Ghost.write_alone {src : List (BitVec 8)} {off : ℕ} (hA : g.alone = some A) :
    (g.write dp i a n src off).alone = some { A with
      node := Function.update A.node i (n.write a src off)
      spent := A.spent + (chunks off src.length + 1) } := by
  unfold Ghost.write Ghost.spend Ghost.store
  dsimp only
  rw [show (g.hold dp _).alone = some A from hA]
  rfl

/-- A process that has locked the directory, with as many inodes in use as before. -/
structure After (R : Rules) (g : Ghost) (A : Alone) (dp : Ip) (i m : ℕ) (d : List (BitVec 8))
    (g' : Ghost) : Prop where
  alone : ∃ A', g'.alone = some A' ∧ A'.spent ≤ A.spent + 2 ∧ (R.inUse g' A').card ≤ (R.inUse g A).card + m
  dir : ∃ a n, g'.Dir dp i a n ∧ n.data = d

theorem After.spent {m : ℕ} {d : List (BitVec 8)} {g' : Ghost} {A' : Alone}
    (h : After R g A dp i m d g') (hA' : g'.alone = some A') : A'.spent ≤ A.spent + 2 := by
  obtain ⟨A₁, hA₁, hle, -⟩ := h.alone
  rw [hA'] at hA₁
  cases hA₁
  exact hle

/-- The directory maps the names as its contents say. -/
theorem After.gives {m : ℕ} {d : List (BitVec 8)} {g' : Ghost} (h : After R g A dp i m d g')
    (hrep : Rep s v) (H : Stands R v g') (hno : ∀ e, ¬ R.Panics e)
    (hroom : (R.inUse g A).card + m < NINODE) (name : List (BitVec 8)) :
    Gives s dp name (lookup d name) := by
  obtain ⟨A', hA', -, hle⟩ := h.alone
  obtain ⟨a, n, hdir, rfl⟩ := h.dir
  exact Inside.gives ⟨hrep, H, hA', hdir⟩ hno (by omega) name

theorem After.entries {m : ℕ} {d : List (BitVec 8)} {g' : Ghost} (h : After R g A dp i m d g')
    (hrep : Rep s v) (H : Stands R v g') : entries s dp = d := by
  obtain ⟨A', hA', -⟩ := h.alone
  obtain ⟨a, n, hdir, rfl⟩ := h.dir
  exact Inside.entries_eq ⟨hrep, H, hA', hdir⟩

theorem After.write (R : Rules) (src : List (BitVec 8)) (hA : g.alone = some A) (h : g.Dir dp i a n)
    (hk : k ≤ nent n.data) (hsrc : src.length = DIRENT)
    (hfar : ¬ TooFar n.data (k * DIRENT) DIRENT) :
    After R g A dp i 0 (patch n.data (k * DIRENT) src) (g.write dp i a n src (k * DIRENT)) := by
  refine ⟨⟨_, Ghost.write_alone hA, ?_, Nat.le_refl _⟩, a, _, h.write hk hsrc hfar, rfl⟩
  dsimp only
  rw [hsrc, chunks_dirent]

namespace DirReady

variable (h : DirReady s dp)
include h

/-- What `dirlink` does to what the process owns. -/
theorem dirlink_after (wait : Prop) (name : List (BitVec 8)) (inum : ℕ)
    (hw : ¬ wait → ¬ FindsLocked s dp name) :
    (dirlink dp name inum).wp (quiet s wait).spec (fun r g' => ¬ FindsLocked s dp name ∧
      ((find (entries s dp) name ≠ none ∧ r = false ∧
        After (quiet s wait) (process s) (Alone.of (view s) (locks s)) dp (s.icache dp).inum 0
          (entries s dp) g') ∨
      ∃ k, find (entries s dp) name = none ∧ Vacant (entries s dp) k ∧ r = true ∧
        After (quiet s wait) (process s) (Alone.of (view s) (locks s)) dp (s.icache dp).inum 0
          (patch (entries s dp) (k * DIRENT) (newDirent name inum).bytes) g')) (process s) := by
  have hin := h.inside wait
  have htwo := h.two_places wait
  have hent := hin.entries_eq
  have hslot := h.slot
  have hwf := h.wf
  rw [hent] at hslot hwf ⊢
  have htx : (process s).tx = true := decide_eq_true h.tx
  have hlt : ∀ j, lookup ((view s).nodeOf dp).data name = some j → j < s.sb.nino := by
    intro j hj
    obtain ⟨k, hk, rfl⟩ := Option.map_eq_some_iff.mp hj
    exact hwf.inum k (find_eq_some.mp hk).1
  refine dirlink_wp hin.dir htx hlt (Or.inr ⟨_, rfl, by omega⟩) (fun k ip hk hip => ?_)
    (fun k hnone hk he hfull => ?_) fun k hnone hk hfar => ⟨?_, Or.inr ⟨k, hnone, hk.vacant, rfl,
      After.write _ _ rfl hin.dir hk.vacant.1 (length_newDirent _ _) hfar⟩⟩
  · -- the lock of the inode that was found
    have hlock : ∀ jp, (s.icache jp).locked = true →
        (s.icache jp).inum = (dirent ((view s).nodeOf dp).data k).inum.toNat → jp = ip :=
      fun jp hl hj => (hip jp _ (mem_locks.mpr ⟨hl, rfl⟩)).mpr hj
    have hnot : (process s).held ip = none → ¬ FindsLocked s dp name := by
      rintro hheld ⟨k', jp, hk', hl, hj⟩
      rw [hent, named_iff hwf.distinct, hk] at hk'
      cases hk'
      rw [hent] at hj
      rw [← hlock jp hl hj] at hheld
      exact (hin.stands.locked jp).mp hl hheld
    have hfree : ∀ j, (quiet s wait).Free ((process s).take ip j) ip := by
      intro j
      refine Or.inr ?_
      by_cases hwait : wait
      · exact Or.inl ⟨hwait, rfl⟩
      · refine Or.inr (Classical.not_not.mp fun hheld => hw hwait ?_)
        have hl : (s.icache ip).locked = true := (hin.stands.locked ip).mpr hheld
        refine ⟨k, ip, ?_, hl, ?_⟩
        · rw [hent]
          exact (named_iff hwf.distinct).mpr hk
        · rw [hent]
          exact (hip ip _ (mem_locks.mpr ⟨hl, rfl⟩)).mp rfl
    refine iput_wp Ghost.mem_take (hfree _) htx (fun hheld _ => ?_) fun x hheld _ _ _ => ?_
    · rw [Ghost.take_drop]
      exact ⟨hnot hheld, Or.inl ⟨by rw [hk]; exact Option.some_ne_none _, rfl,
        ⟨_, rfl, Nat.le_add_right _ _, Nat.le_refl _⟩, _, _, hin.dir, rfl⟩⟩
    · rw [Ghost.take_store_drop]
      exact ⟨hnot hheld, Or.inl ⟨by rw [hk]; exact Option.some_ne_none _, rfl,
        ⟨_, rfl, Nat.le_add_right _ _, Nat.le_refl _⟩, _, _,
          ⟨hin.dir.mem, hin.dir.held, hin.dir.type, hin.dir.entries⟩, rfl⟩⟩
  · exfalso
    rcases hslot with ⟨j, hj, hz⟩ | hlt'
    · exact hk.first j (he ▸ hj) hz
    · omega
  · rintro ⟨j, ip, hj, -⟩
    rw [hent] at hj
    exact (not_named hwf.distinct).mpr hnone ⟨j, hj⟩

theorem not_linkSpec {inum : ℕ} (hl : FindsLocked s dp name) : ¬ LinkSpec s dp name inum := by
  rintro ⟨r, s', hs', -⟩
  have hin := h.inside True
  have hcode := hin.stands.wp_code _ hin.rep (Option.some_ne_none _)
    (h.dirlink_after True name inum fun h => absurd trivial h)
  obtain ⟨-, -, -, ⟨hno, -⟩, -⟩ := wp_ok hcode hs'
  exact hno hl

theorem gives (name : List (BitVec 8)) : Gives s dp name (lookup (entries s dp) name) := by
  have hin := h.inside False
  have htwo := h.two_places False
  rw [hin.entries_eq]
  exact hin.gives (fun e he => he.1) (by omega) name

theorem linkSpec {inum : ℕ} (hpos : 0 < inum) (hlt : inum < 65536) (hl : ¬ FindsLocked s dp name) :
    LinkSpec s dp name inum := by
  have hin := h.inside False
  have htwo := h.two_places False
  have hno : ∀ e, ¬ (quiet s False).Panics e := fun e he => he.1
  have hafter := Thread.wp_mono (h.dirlink_after False name inum fun _ => hl)
    fun r g' hr => (⟨hr, fun A' hA' => by
      rcases hr.2 with ⟨-, -, haft⟩ | ⟨k, -, -, -, haft⟩
      · exact haft.spent hA'
      · exact haft.spent hA'⟩ :
      _ ∧ ∀ A', g'.alone = some A' → A'.spent ≤ (Alone.of (view s) (locks s)).spent + 2)
  obtain ⟨r, s', hs', -, v', hrep', g', ⟨-, hQ⟩, H'⟩ :=
    hin.stands.wp_room _ hin.rep hin.alone h.blocks hno hafter
  refine ⟨r, s', hs', fun hnamed => ?_, fun hnamed => ?_⟩
  · obtain ⟨-, hr, haft⟩ | ⟨k, hnone, -⟩ := hQ
    · exact ⟨hr, haft.entries hrep' H'⟩
    · exact absurd hnamed ((not_named h.wf.distinct).mpr hnone)
  · rw [not_named h.wf.distinct] at hnamed
    obtain ⟨hsome, -⟩ | ⟨k, hnone, hk, hr, haft⟩ := hQ
    · exact absurd hnamed hsome
    · have hinum : (newDirent name inum).inum.toNat = inum := Nat.mod_eq_of_lt hlt
      have hne : (newDirent name inum).inum ≠ 0 := by
        intro e
        rw [e] at hinum
        exact absurd hinum (Nat.ne_of_lt hpos)
      refine ⟨hr, fun name' x => gives_iff ?_ (h.gives name')⟩
      have hgives := haft.gives hrep' H' hno (by omega) name'
      rwa [lookup_link h.wf.entries.whole hk hnone hne cut_strncpy length_strncpy, hinum] at hgives

theorem clearSpec (name : List (BitVec 8)) : ClearSpec s dp name := by
  rintro ⟨k, hk⟩
  rw [named_iff h.wf.distinct] at hk
  have hin := h.inside False
  have htwo := h.two_places False
  have hno : ∀ e, ¬ (quiet s False).Panics e := fun e he => he.1
  have hent := hin.entries_eq
  have hwf := h.wf
  have hlt := (find_eq_some.mp hk).1
  rw [hent] at hwf hk hlt
  -- the entry is found
  have hlookup : (dirlookup dp name).wp (quiet s False).spec (fun r g' =>
      (∃ ip, r = some (ip, k * DIRENT) ∧
        g' = (process s).take ip (dirent ((view s).nodeOf dp).data k).inum.toNat) ∧
      ∀ A', g'.alone = some A' → A'.spent ≤ (Alone.of (view s) (locks s)).spent + 0) (process s) := by
    refine dirlookup_wp hin.dir (fun j hj => ?_) (Or.inr ⟨_, rfl, by omega⟩) (fun hnone => ?_)
      fun k' ip hk' _ => ?_
    · obtain ⟨k', hk', rfl⟩ := Option.map_eq_some_iff.mp hj
      exact hwf.inum k' (find_eq_some.mp hk').1
    · rw [hk] at hnone
      cases hnone
    · rw [hk] at hk'
      cases hk'
      refine ⟨⟨ip, rfl, rfl⟩, fun A' hA' => ?_⟩
      cases hA'
      exact Nat.le_refl _
  obtain ⟨_, s₁, hs₁, hfree, v₁, hrep₁, g₁, ⟨ip, rfl, rfl⟩, H₁⟩ :=
    hin.stands.wp_room _ hin.rep hin.alone (Nat.zero_le _) hno hlookup
  -- and cleared
  have hzeros : (List.replicate DIRENT (0 : BitVec 8)).length = DIRENT := List.length_replicate
  have hdir : ((process s).take ip (dirent ((view s).nodeOf dp).data k).inum.toNat).Dir dp
      (s.icache dp).inum (s.icache dp).din.attr ((view s).nodeOf dp) :=
    ⟨Ghost.mem_take_of_mem hin.dir.mem, hin.dir.held, hin.dir.type, hin.dir.entries⟩
  have hwrite : (writei dp (List.replicate DIRENT 0) (k * DIRENT)).wp (quiet s False).spec (fun r g' =>
      (r = some DIRENT ∧ After (quiet s False)
        ((process s).take ip (dirent ((view s).nodeOf dp).data k).inum.toNat)
        (Alone.of (view s) (locks s)) dp (s.icache dp).inum 0
        (patch ((view s).nodeOf dp).data (k * DIRENT) (List.replicate DIRENT 0)) g') ∧
      ∀ A', g'.alone = some A' → A'.spent ≤ (Alone.of (view s) (locks s)).spent + 2)
      ((process s).take ip (dirent ((view s).nodeOf dp).data k).inum.toNat) := by
    have hnear : ¬ TooFar ((view s).nodeOf dp).data (k * DIRENT) DIRENT := by
      have hsmall := hwf.entries.small
      rw [MAXFILE_BSIZE] at hsmall
      unfold TooFar UINT
      rw [MAXFILE_BSIZE]
      unfold nent DIRENT at *
      omega
    refine writei_wp (decide_eq_true h.tx) hdir.mem hdir.held (by rw [hdir.type]; decide) (fun hfar => ?_)
      fun _ => ?_
    · rw [hzeros] at hfar
      exact absurd hfar hnear
    · have haft := After.write (quiet s False) (List.replicate DIRENT 0)
        (show _ = some (Alone.of (view s) (locks s)) from rfl) hdir hlt.le hzeros hnear
      exact ⟨⟨congrArg some hzeros, haft⟩, fun A' hA' => haft.spent hA'⟩
  obtain ⟨_, s₂, hs₂, -, v₂, hrep₂, g₂, ⟨rfl, haft⟩, H₂⟩ :=
    H₁.wp_room _ hrep₁ rfl (Nat.le_trans h.blocks hfree) hno hwrite
  refine ⟨ip, k * DIRENT, s₁, s₂, hs₁, hs₂, fun name' x => gives_iff ?_ (h.gives name')⟩
  have hroom := inUse_take_le (quiet s False) (process s) (Alone.of (view s) (locks s)) ip
    (dirent ((view s).nodeOf dp).data k).inum.toNat
  have hgives := haft.gives hrep₂ H₂ hno (by omega) name'
  rwa [lookup_unlink hwf.entries.whole hwf.distinct hk hzeros (by decide), ← hent] at hgives

end DirReady

/-! ## The root directory -/

theorem length_rootLocked : (entries rootLocked ip0).length = 512 := by
  unfold entries
  rw [length_content]
  rfl

theorem nent_rootLocked : nent (entries rootLocked ip0) = 32 := by
  unfold nent
  rw [length_rootLocked]
  rfl

theorem rootLocked_inum : ∀ k < 32, (dirent (entries rootLocked ip0) k).inum = if k < 2 then 1 else 0 := by
  decide +kernel

theorem rootLocked_ready : DirReady rootLocked ip0 where
  settled := by
    refine ⟨rootLocked_consistent, fun ip hr hl => ?_, fun ip hl => ?_, rfl⟩
    · rw [(rootLocked_entry hr).2] at hl
      cases hl
    · by_contra hr
      have e : ip ≠ ip0 := by
        rintro rfl
        exact hr (by decide)
      have hc : rootLocked.icache ip = rootBoot.icache ip := put_of_ne e
      rw [hc] at hl
      cases hl
  tx := Nat.one_pos
  locked := rfl
  valid := rfl
  type := rfl
  wf := by
    have hused : ∀ k < 32, (dirent (entries rootLocked ip0) k).inum ≠ 0 → k = 0 ∨ k = 1 := by
      intro k hk hne
      rw [rootLocked_inum k hk] at hne
      by_contra hk'
      exact hne (if_neg (by omega))
    refine ⟨⟨?_, ?_⟩, fun k hk => ?_, fun j hj k hk hj' hk' e => ?_⟩
    · rw [length_rootLocked]
      exact ⟨32, rfl⟩
    · rw [length_rootLocked]
      decide
    · rw [nent_rootLocked] at hk
      rw [rootLocked_inum k hk]
      split_ifs
      · decide
      · decide
    · rw [nent_rootLocked] at hj hk
      have hnames : nameOf (dirent (entries rootLocked ip0) 0).name = [46] ∧
          nameOf (dirent (entries rootLocked ip0) 1).name = [46, 46] := by decide +kernel
      obtain ⟨h₀, h₁⟩ := hnames
      rcases hused j hj hj' with rfl | rfl
      · rcases hused k hk hk' with rfl | rfl
        · rfl
        · rw [h₀, h₁] at e
          cases e
      · rcases hused k hk hk' with rfl | rfl
        · rw [h₀, h₁] at e
          cases e
        · rfl
  slot := by
    refine Or.inl ⟨2, ?_, rootLocked_inum 2 (by decide)⟩
    rw [nent_rootLocked]
    decide
  blocks := by decide +kernel
  places := ⟨⟨1, by decide⟩, ⟨2, by decide⟩, by decide, rfl, rfl⟩

/-- A directory is a finite map, unless `dirlink` finds an inode that is locked. -/
theorem dirlink_finite_map (h : DirReady s dp) :
    (∀ name inum, 0 < inum → inum < 65536 →
      (LinkSpec s dp name inum ↔ ¬ FindsLocked s dp name)) ∧
    ∀ name, ClearSpec s dp name := by
  refine ⟨fun name inum hpos hlt => ⟨fun hs hl => h.not_linkSpec hl hs, h.linkSpec hpos hlt⟩, h.clearSpec⟩

theorem dirlink_finite_map_root :
    (∃ s', (dirlink ip0 [97] 5).code rootLocked = .ok (true, s') ∧ Gives s' ip0 [97] (some 5)) ∧
    ∃ ip off s₁ s₂, (dirlookup ip0 [46]).code rootLocked = .ok (some (ip, off), s₁) ∧
      (writei ip0 (List.replicate DIRENT 0) off).code s₁ = .ok (some DIRENT, s₂) ∧
      Gives s₂ ip0 [46] none := by
  have h := rootLocked_ready
  obtain ⟨hlink, hclear⟩ := dirlink_finite_map h
  have hnone : ¬ ∃ k, Named (entries rootLocked ip0) k [97] := by
    rw [not_named h.wf.distinct]
    decide +kernel
  have hdot : Named (entries rootLocked ip0) 0 [46] := by
    rw [named_iff h.wf.distinct]
    decide +kernel
  constructor
  · obtain ⟨r, s', hs', -, hnew⟩ := (hlink [97] 5 (by decide) (by decide)).mpr
      fun ⟨k, _, hk, _⟩ => hnone ⟨k, hk⟩
    obtain ⟨rfl, hgives⟩ := hnew hnone
    exact ⟨s', hs', (hgives [97] (some 5)).mpr rfl⟩
  · obtain ⟨ip, off, s₁, s₂, h₁, h₂, hgives⟩ := hclear [46] ⟨0, hdot⟩
    exact ⟨ip, off, s₁, s₂, h₁, h₂, (hgives [46] none).mpr rfl⟩

/-- The entry `.` of a directory that is locked. -/
theorem dirlink_dot_waits : DirReady rootLocked ip0 ∧ ¬ LinkSpec rootLocked ip0 [46] 5 ∧
    ∃ s', (dirlink ip0 [46] 5).code rootLocked = .error (.deadlock, s') := by
  have hrun : (match (dirlink ip0 [46] 5).code rootLocked with
      | .ok _ => none | .error e => some e.1) = some Panic.deadlock := by decide +kernel
  cases hx : (dirlink ip0 [46] 5).code rootLocked with
  | ok p =>
    rw [hx] at hrun
    cases hrun
  | error e =>
    rw [hx] at hrun
    obtain ⟨e, s'⟩ := e
    cases hrun
    refine ⟨rootLocked_ready, ?_, s', rfl⟩
    rintro ⟨r, t, ht, -⟩
    rw [hx] at ht
    cases ht

end DuckoUnix.Inode
