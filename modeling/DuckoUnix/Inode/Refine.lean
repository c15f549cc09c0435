import DuckoUnix.Lib.Refine
import DuckoUnix.Fs.Inodes
import DuckoUnix.Inode.View

/-!
# The disk behaves like what is seen

`Rep s v` says that the store `s` holds the file system that `v` shows: the store is sound, no file
has holes, and inodes and cache are the same. Every operation on `s` then does what it does on `v`, or
runs out of blocks. So a thread can be looked at over `View`.
-/

namespace DuckoUnix.Inode

open Lib Fs Function

variable {s s' s'' : Store} {v v' : View} {ip jp : Ip} {i j : ℕ}

/-! ## Representation -/

/-- An inode on the disk; a free one has no contents. -/
def Node.of (d : Disk) (di : Dinode) : Node where
  attr := di.attr
  data := if di.type = T_FREE then [] else content d di

def Entry.of (e : Fs.Inode) : Entry := ⟨e.inum, e.ref, e.locked, e.valid, e.din.attr⟩

structure Rep (s : Store) (v : View) : Prop where
  sound : Sound s
  sb : v.sb = s.sb
  node : ∀ i < s.sb.nino, v.node i = Node.of s.disk (dinode s.sb s.disk i)
  noHole : ∀ i < s.sb.nino, (dinode s.sb s.disk i).type ≠ T_FREE →
    NoHole s.disk (dinode s.sb s.disk i)
  ent : ∀ ip, v.ent ip = Entry.of (s.icache ip)
  /-- valid copies are of allocated inodes -/
  live : ∀ ip, 0 < (s.icache ip).ref → (s.icache ip).valid = true →
    (s.icache ip).din.type = (dinode s.sb s.disk (s.icache ip).inum).type ∧
      (s.icache ip).din.type ≠ T_FREE
  outstanding : v.outstanding = s.outstanding
  stale : v.stale = s.stale
  readAllocs : s.readAllocs = 0

/-- How stores and views go together. -/
def refinement : Refinement Store View Halt Fault where
  Rel := Rep
  room s := nfree s.sb s.disk
  spent := View.spent
  Short h := h.1 = .outOfBlocks
  Fault f h := f = .panic h.1
  Undef f := f = .misuse

namespace Rep

variable (h : Rep s v)
include h

theorem live' (hl : v.Live ip) : Live s ip := by
  obtain ⟨hr, hv⟩ := hl
  rw [h.ent] at hr hv
  obtain ⟨ht, ht'⟩ := h.live ip hr hv
  exact ⟨hr, hv, ht', by rw [← ht]; exact ht'⟩

theorem inum_lt (hl : v.Live ip) : (s.icache ip).inum < s.sb.nino :=
  h.sound.inum ip (h.live' hl).ref

theorem nodeOf (hr : 0 < (s.icache ip).ref) :
    v.nodeOf ip = Node.of s.disk (dinode s.sb s.disk (s.icache ip).inum) := by
  unfold View.nodeOf
  rw [h.ent, ← h.node _ (h.sound.inum ip hr)]
  rfl

theorem data (hl : v.Live ip) : (v.nodeOf ip).data = content s.disk (s.icache ip).din := by
  have hl' := h.live' hl
  rw [h.nodeOf hl'.ref, ← h.sound.content_eq hl']
  exact if_neg hl'.disk

theorem noHole' (hl : v.Live ip) : NoHole s.disk (s.icache ip).din := by
  have hl' := h.live' hl
  exact (h.noHole _ (h.inum_lt hl) hl'.disk).congr (h.sound.size ip hl'.ref hl'.valid)
    (h.sound.addrs ip hl'.ref hl'.valid)

end Rep

/-! ## Operations on the cache -/

/-- The inode `e` may stand in place `ip` of the cache. -/
structure Fits (s : Store) (ip : Ip) (e : Fs.Inode) : Prop where
  inum : 0 < e.ref → e.inum < s.sb.nino
  unique : 0 < e.ref → ∀ jp, jp ≠ ip → 0 < (s.icache jp).ref → (s.icache jp).inum ≠ e.inum
  size : 0 < e.ref → e.valid = true → e.din.size = (dinode s.sb s.disk e.inum).size
  addrs : 0 < e.ref → e.valid = true → e.din.addrs = (dinode s.sb s.disk e.inum).addrs
  type : 0 < e.ref → e.valid = true →
    e.din.type = (dinode s.sb s.disk e.inum).type ∧ e.din.type ≠ T_FREE

theorem Rep.fits (h : Rep s v) (ip : Ip) : Fits s ip (s.icache ip) where
  inum := h.sound.inum ip
  unique hr jp hj hr' e := hj (h.sound.unique jp ip hr' hr e)
  size := h.sound.size ip
  addrs := h.sound.addrs ip
  type := h.live ip

theorem Rep.put {e : Fs.Inode} {x : Entry} (h : Rep s v) (hf : Fits s ip e) (hs' : s' = s.put ip e)
    (hx : x = Entry.of e) : Rep s' (v.put ip x) := by
  have hsb : s'.sb = s.sb := by rw [hs']; rfl
  have hdisk : s'.disk = s.disk := by rw [hs']; rfl
  have hself : s'.icache ip = e := by rw [hs', put_self]
  have hother : ∀ jp, jp ≠ ip → s'.icache jp = s.icache jp := fun jp hj => by rw [hs', put_of_ne hj]
  refine ⟨?_, ?_, ?_, ?_, fun jp => ?_, fun jp hr hv => ?_, ?_, ?_, ?_⟩
  · rw [hs']
    exact h.sound.put hf.inum hf.unique fun hr hv => ⟨hf.size hr hv, hf.addrs hr hv, fun ht =>
      absurd ((hf.type hr hv).1.trans ht) (hf.type hr hv).2⟩
  · rw [hsb]
    exact h.sb
  · rw [hsb, hdisk]
    exact h.node
  · rw [hsb, hdisk]
    exact h.noHole
  · show update v.ent ip x jp = _
    by_cases hj : jp = ip
    · rw [hj, update_self, hself, hx]
    · rw [update_of_ne hj, hother jp hj, h.ent]
  · rw [hsb, hdisk]
    by_cases hj : jp = ip
    · rw [hj, hself] at hr hv ⊢
      exact hf.type hr hv
    · rw [hother jp hj] at hr hv ⊢
      exact h.live jp hr hv
  · rw [hs']
    exact h.outstanding
  · rw [hs']
    exact h.stale
  · rw [hs']
    exact h.readAllocs

/-- A change of an inode in memory that changes neither which inode it is nor its copy. -/
theorem Rep.set (h : Rep s v) {e : Fs.Inode} {x : Entry} (hi : e.inum = (s.icache ip).inum)
    (hr : 0 < e.ref → 0 < (s.icache ip).ref) (hv : e.valid = (s.icache ip).valid)
    (hd : e.din = (s.icache ip).din) (hx : x = Entry.of e) : Rep (s.put ip e) (v.put ip x) := by
  have hf := h.fits ip
  refine h.put ⟨fun he => ?_, fun he => ?_, fun he hv' => ?_, fun he hv' => ?_, fun he hv' => ?_⟩ rfl hx
  · rw [hi]
    exact hf.inum (hr he)
  · rw [hi]
    exact hf.unique (hr he)
  · rw [hi, hd]
    exact hf.size (hr he) (hv ▸ hv')
  · rw [hi, hd]
    exact hf.addrs (hr he) (hv ▸ hv')
  · rw [hi, hd]
    exact hf.type (hr he) (hv ▸ hv')

/-! ## Operations -/

section Refines

variable {α : Type} {x : K α} {y : V α}

theorem refines_of_misuse (hy : y v = .error .misuse) : Refines refinement x y s v :=
  (refines_error hy).mpr (Or.inl rfl)

theorem refines_of_panic {e : Panic} {s' : Store} (hy : y v = .error (.panic e))
    (hx : x s = .error (e, s')) : Refines refinement x y s v := by
  refine (refines_error hy).mpr (Or.inr ?_)
  unfold wp
  rw [hx]
  exact Or.inl rfl

/-- An operation that takes no blocks. -/
theorem refines_of_eq {a : α} (hy : y v = .ok (a, v')) (hx : x s = .ok (a, s'))
    (hspent : v'.spent = v.spent) (hroom : nfree s.sb s.disk ≤ nfree s'.sb s'.disk)
    (hrep : Rep s' v') : Refines refinement x y s v := by
  refine (refines_ok hy).mpr ?_
  unfold wp
  rw [hx]
  refine ⟨rfl, hrep, ?_⟩
  show nfree s.sb s.disk + v.spent ≤ nfree s'.sb s'.disk + v'.spent
  omega

theorem refines_of_ok {a : α} (hy : y v = .ok (a, v')) (hspent : v'.spent = v.spent)
    (hx : wp (fun _ => False) x (fun b s' => b = a ∧ Rep s' v' ∧
      nfree s.sb s.disk ≤ nfree s'.sb s'.disk) s) : Refines refinement x y s v := by
  refine (refines_ok hy).mpr (wp_weaken (wp_mono hx ?_) fun _ h => h.elim)
  rintro b s' ⟨hb, hrep, hroom⟩
  refine ⟨hb, hrep, ?_⟩
  show nfree s.sb s.disk + v.spent ≤ nfree s'.sb s'.disk + v'.spent
  omega

end Refines

theorem Rep.outstanding_set (h : Rep s v) {m n : ℕ} (e : m = n) :
    Rep { s with outstanding := n } { v with outstanding := m } :=
  { h with sound := { h.sound with }, outstanding := e }

variable (h : Rep s v)
include h

theorem refines_begin_op : Refines refinement (Op.code .begin_op) (Op.abs .begin_op) s v := by
  refine refines_of_ok rfl rfl ⟨rfl, h.outstanding_set ?_, Nat.le_refl _⟩
  rw [h.outstanding]

theorem refines_end_op : Refines refinement (Op.code .end_op) (Op.abs .end_op) s v := by
  refine refines_of_ok rfl rfl ⟨rfl, h.outstanding_set ?_, Nat.le_refl _⟩
  rw [h.outstanding]

theorem refines_idup : Refines refinement (Op.code (.idup ip)) (Op.abs (.idup ip)) s v := by
  by_cases hr : 0 < (v.ent ip).ref
  · refine refines_of_ok (if_pos hr) rfl ⟨rfl, ?_, Nat.le_refl _⟩
    rw [h.ent] at hr ⊢
    exact h.set rfl (fun _ => hr) rfl rfl rfl
  · exact refines_of_misuse (if_neg hr)

theorem refines_unref : Refines refinement (Op.code (.unref ip)) (Op.abs (.unref ip)) s v := by
  by_cases hr : 0 < (v.ent ip).ref
  · refine refines_of_ok (if_pos hr) rfl ⟨rfl, ?_, Nat.le_refl _⟩
    rw [h.ent] at hr ⊢
    exact h.set rfl (fun _ => hr) rfl rfl rfl
  · exact refines_of_misuse (if_neg hr)

theorem refines_acquiresleep :
    Refines refinement (Op.code (.acquiresleep ip)) (Op.abs (.acquiresleep ip)) s v := by
  have hlocked : (v.ent ip).locked = (s.icache ip).locked := by rw [h.ent]; rfl
  have hx : Op.code (.acquiresleep ip) s = if (s.icache ip).locked = true then .error (.deadlock, s)
      else .ok ((), s.put ip { s.icache ip with locked := true }) := by
    show (if (s.icache ip).locked = true then _ else _ : K Unit) s = _
    split_ifs
    · rfl
    · rfl
  by_cases hl : (s.icache ip).locked = true
  · exact refines_of_panic (if_pos (hlocked.trans hl)) (hx.trans (if_pos hl))
  · rw [if_neg hl] at hx
    refine refines_of_eq (if_neg (by rw [hlocked]; exact hl)) hx rfl (Nat.le_refl _) ?_
    rw [h.ent]
    exact h.set rfl id rfl rfl rfl

theorem refines_holdingsleep :
    Refines refinement (Op.code (.holdingsleep ip)) (Op.abs (.holdingsleep ip)) s v := by
  refine refines_of_ok rfl rfl ⟨?_, h, Nat.le_refl _⟩
  rw [h.ent]
  rfl

theorem refines_look : Refines refinement (Op.code (.look ip)) (Op.abs (.look ip)) s v := by
  refine refines_of_ok rfl rfl ⟨?_, h, Nat.le_refl _⟩
  rw [h.ent]
  rfl

theorem refines_size : Refines refinement (Op.code (.size ip)) (Op.abs (.size ip)) s v := by
  by_cases hl : v.Live ip
  · refine refines_of_ok (if_pos hl) rfl ⟨?_, h, Nat.le_refl _⟩
    rw [h.data hl, length_content]
  · exact refines_of_misuse (if_neg hl)

theorem refines_setAttr {f : Attr → Attr} :
    Refines refinement (Op.code (.setAttr ip f)) (Op.abs (.setAttr ip f)) s v := by
  by_cases hc : v.Live ip ∧ (f (v.ent ip).attr).type = (v.ent ip).attr.type
  · refine refines_of_ok (if_pos hc) rfl ⟨rfl, ?_, Nat.le_refl _⟩
    obtain ⟨hl, ht⟩ := hc
    rw [h.ent] at ht ⊢
    have hf := h.fits ip
    refine h.put (e := { s.icache ip with
      din := (s.icache ip).din.setAttr (f (s.icache ip).din.attr) })
      ⟨hf.inum, hf.unique, hf.size, hf.addrs, fun hr hv => ?_⟩ rfl rfl
    have ht' : (f (s.icache ip).din.attr).type = (s.icache ip).din.type := ht
    show (f (s.icache ip).din.attr).type = _ ∧ (f (s.icache ip).din.attr).type ≠ T_FREE
    rw [ht']
    exact hf.type hr hv
  · exact refines_of_misuse (if_neg hc)

theorem refines_releasesleep :
    Refines refinement (Op.code (.releasesleep ip)) (Op.abs (.releasesleep ip)) s v := by
  by_cases hr : 0 < (v.ent ip).ref
  · refine refines_of_ok (if_pos hr) rfl ⟨rfl, ?_, Nat.le_refl _⟩
    have hr' : 0 < (s.icache ip).ref := by rwa [h.ent] at hr
    have hput : Rep (s.put ip { s.icache ip with locked := false })
        (v.put ip { v.ent ip with locked := false }) := by
      rw [h.ent]
      exact h.set rfl id rfl rfl rfl
    refine { hput with sound := { hput.sound with }, stale := ?_ }
    -- the copy differs from the inode on the disk where its attributes do
    show (v.stale || ((v.ent ip).valid && decide ((v.ent ip).attr ≠ (v.nodeOf ip).attr))) =
      (s.stale || ((s.icache ip).valid &&
        decide ((s.icache ip).din ≠ dinode s.sb s.disk (s.icache ip).inum)))
    rw [h.stale, h.nodeOf hr', h.ent]
    cases hv : (s.icache ip).valid with
    | false =>
      show (s.stale || ((s.icache ip).valid && _)) = _
      rw [hv]
      rfl
    | true =>
      congr 1
      show ((s.icache ip).valid && _) = _
      rw [hv, Bool.true_and, Bool.true_and]
      refine decide_eq_decide.mpr (not_congr ?_)
      exact Dinode.attr_eq_iff (h.sound.size ip hr' hv) (h.sound.addrs ip hr' hv)
  · exact refines_of_misuse (if_neg hr)

omit h in
theorem cached_eq (h : Rep s v) (inum : ℕ) : v.cached inum = Fs.cached s inum := by
  unfold View.cached Fs.cached
  congr 1
  funext jp
  rw [h.ent]
  rfl

omit h in
theorem empty_eq (h : Rep s v) : v.empty = Fs.empty s := by
  unfold View.empty Fs.empty
  congr 1
  funext jp
  rw [h.ent]
  rfl

omit h in
theorem not_cached {inum : ℕ} (hc : Fs.cached s inum = none) (hr : 0 < (s.icache jp).ref) :
    (s.icache jp).inum ≠ inum := by
  intro e
  have := List.find?_eq_none.mp hc jp (List.mem_finRange jp)
  simp [hr, e] at this

omit h in
theorem iget_eq (inum : ℕ) : Fs.iget inum s =
    match Fs.cached s inum with
    | some ip => .ok (ip, s.put ip { s.icache ip with ref := (s.icache ip).ref + 1 })
    | none =>
      match Fs.empty s with
      | none => .error (.igetNoInodes, s)
      | some ip => .ok (ip, s.put ip { s.icache ip with inum := inum, ref := 1, valid := false }) := by
  show (match Fs.cached s inum with | some ip => _ | none => _ : K Ip) s = _
  cases Fs.cached s inum with
  | some ip => rfl
  | none =>
    show (match Fs.empty s with | none => _ | some ip => _ : K Ip) s = _
    cases Fs.empty s with
    | none => rfl
    | some ip => rfl

theorem refines_iget {inum : ℕ} :
    Refines refinement (Op.code (.iget inum)) (Op.abs (.iget inum)) s v := by
  have hx : Op.code (.iget inum) s = _ := iget_eq inum
  by_cases hi : inum < v.sb.nino
  · have hy : Op.abs (.iget inum) v = _ := if_pos hi
    rw [cached_eq h, empty_eq h] at hy
    cases hc : Fs.cached s inum with
    | some ip =>
      rw [hc] at hx hy
      have hr : 0 < (s.icache ip).ref := by
        have := List.find?_some hc
        simp at this
        exact this.1
      refine refines_of_eq hy hx rfl (Nat.le_refl _) ?_
      rw [h.ent]
      exact h.set rfl (fun _ => hr) rfl rfl rfl
    | none =>
      rw [hc] at hx hy
      cases he : Fs.empty s with
      | none =>
        rw [he] at hx hy
        exact refines_of_panic hy hx
      | some ip =>
        rw [he] at hx hy
        refine refines_of_eq hy hx rfl (Nat.le_refl _) ?_
        rw [h.ent]
        refine h.put (e := { s.icache ip with inum := inum, ref := 1, valid := false })
          ⟨fun _ => ?_, fun _ jp _ hr => not_cached hc hr, fun _ hv => (nomatch hv),
            fun _ hv => (nomatch hv), fun _ hv => (nomatch hv)⟩ rfl rfl
        rwa [h.sb] at hi
  · exact refines_of_misuse (if_neg hi)

omit h in
theorem load_of_invalid (hv : (s.icache ip).valid = false)
    (hb : IBLOCK (s.icache ip).inum s.sb < s.fssize) (hs' : s' = s.put ip { s.icache ip with
      din := dinode s.sb s.disk (s.icache ip).inum, valid := true }) : load ip s =
      if (dinode s.sb s.disk (s.icache ip).inum).type = T_FREE then .error (.noType, s')
      else .ok ((), s') := by
  have hspec : wp (fun e => (dinode s.sb s.disk (s.icache ip).inum).type = T_FREE ∧
      e = (.noType, s')) (load ip)
      (fun _ t => (dinode s.sb s.disk (s.icache ip).inum).type ≠ T_FREE ∧ t = s') s := by
    subst hs'
    unfold load
    rw [wp_bind, wp_inode, if_pos hv, wp_bind, wp_get]
    dsimp only
    rw [wp_bind]
    refine wp_bread hb ?_
    rw [wp_bind, wp_setInode, wp_bind, wp_inode, put_self]
    refine wp_ite (fun ht => wp_panic ⟨ht, rfl⟩) fun ht => ⟨ht, rfl⟩
  cases hx : load ip s with
  | error e =>
    obtain ⟨ht, he⟩ := wp_error hspec hx
    rw [if_pos ht, he]
  | ok p =>
    obtain ⟨ht, he⟩ := wp_ok hspec hx
    rw [if_neg ht, ← he]

theorem refines_load : Refines refinement (Op.code (.load ip)) (Op.abs (.load ip)) s v := by
  by_cases hr : 0 < (v.ent ip).ref
  · have hy : Op.abs (.load ip) v = _ := if_pos hr
    have hr' : 0 < (s.icache ip).ref := by rwa [h.ent] at hr
    have hvalid : (v.ent ip).valid = (s.icache ip).valid := by rw [h.ent]; rfl
    have hi := h.sound.inum ip hr'
    by_cases hv : (s.icache ip).valid = false
    · rw [if_pos (hvalid.trans hv)] at hy
      have hnode : (v.nodeOf ip).attr = (dinode s.sb s.disk (s.icache ip).inum).attr := by
        rw [h.nodeOf hr']
        rfl
      have hx := load_of_invalid hv (h.sound.layout.IBLOCK_lt_fssize hi) rfl
      by_cases ht : (dinode s.sb s.disk (s.icache ip).inum).type = T_FREE
      · rw [if_pos (show (v.nodeOf ip).attr.type = T_FREE by rw [hnode]; exact ht)] at hy
        exact refines_of_panic hy (hx.trans (if_pos ht))
      · rw [if_neg (show (v.nodeOf ip).attr.type ≠ T_FREE by rw [hnode]; exact ht)] at hy
        refine refines_of_eq hy (hx.trans (if_neg ht)) rfl (Nat.le_refl _) ?_
        have hf := h.fits ip
        rw [hnode, h.ent]
        exact h.put (e := { s.icache ip with
            din := dinode s.sb s.disk (s.icache ip).inum, valid := true })
          ⟨hf.inum, hf.unique, fun _ _ => rfl, fun _ _ => rfl, fun _ _ => ⟨rfl, ht⟩⟩ rfl rfl
    · rw [if_neg (by rw [hvalid]; exact hv)] at hy
      refine refines_of_eq hy ?_ rfl (Nat.le_refl _) h
      show (if (s.icache ip).valid = false then _ else _ : K Unit) s = _
      rw [if_neg hv]
      rfl
  · exact refines_of_misuse (if_neg hr)

theorem refines_readFile {off n : ℕ} :
    Refines refinement (Op.code (.readFile ip off n)) (Op.abs (.readFile ip off n)) s v := by
  by_cases hl : v.Live ip
  · have hy : Op.abs (.readFile ip off n) v = _ := if_pos hl
    have hx := readFile_spec h.sound (h.live' hl) (h.noHole' hl) off n
    have hc := h.data hl
    rw [hc, length_content] at hy
    by_cases hfar : (s.icache ip).din.size.toNat < off ∨ (off + n) % UINT < off
    · rw [if_pos hfar] at hy hx
      exact refines_of_eq hy hx rfl (Nat.le_refl _) h
    · rw [if_neg hfar] at hy hx
      exact refines_of_eq hy hx rfl (Nat.le_refl _) h
  · exact refines_of_misuse (if_neg hl)

omit h in
theorem refines_panic {α : Type} {e : Panic} :
    Refines refinement (Op.code (.panic e : Op α)) (Op.abs (.panic e)) s v := refines_of_panic rfl rfl

/-! ## Operations on the disk -/

omit h in
/-- Inode `i` has changed, and no other file. -/
theorem Rep.change {x : Node} (h : Rep s v) (hs : Sound s') (hf : Fixed s s')
    (hother : ∀ j < s.sb.nino, j ≠ i → dinode s.sb s'.disk j = dinode s.sb s.disk j)
    (hfiles : ∀ j < s.sb.nino, j ≠ i → (dinode s.sb s.disk j).type ≠ T_FREE →
      SameFile s.disk s'.disk (dinode s.sb s.disk j))
    (hself : Node.of s'.disk (dinode s.sb s'.disk i) = x)
    (hhole : (dinode s.sb s'.disk i).type ≠ T_FREE → NoHole s'.disk (dinode s.sb s'.disk i))
    (hnode : v'.node = update v.node i x) (hvsb : v'.sb = v.sb)
    (hent : ∀ jp, v'.ent jp = Entry.of (s'.icache jp))
    (hlive : ∀ jp, 0 < (s'.icache jp).ref → (s'.icache jp).valid = true →
      (s'.icache jp).din.type = (dinode s.sb s'.disk (s'.icache jp).inum).type ∧
        (s'.icache jp).din.type ≠ T_FREE)
    (hout : v'.outstanding = v.outstanding) (hstale : v'.stale = v.stale) : Rep s' v' := by
  have hsb := hf.sb
  refine ⟨hs, by rw [hvsb, hsb, h.sb], fun j hj => ?_, fun j hj ht => ?_, hent, ?_,
    by rw [hout, hf.outstanding, h.outstanding], by rw [hstale, hf.stale, h.stale],
    by rw [hf.readAllocs, h.readAllocs]⟩
  · rw [hsb] at hj ⊢
    rw [hnode]
    by_cases e : j = i
    · rw [e, update_self, hself]
    · rw [update_of_ne e, h.node j hj, hother j hj e]
      unfold Node.of
      congr 1
      split_ifs with ht
      · rfl
      · exact ((hfiles j hj e ht).content (h.noHole j hj ht)).symm
  · rw [hsb] at hj ht ⊢
    by_cases e : j = i
    · rw [e] at ht ⊢
      exact hhole ht
    · rw [hother j hj e] at ht ⊢
      exact (hfiles j hj e ht).noHole (h.noHole j hj ht)
  · rw [hsb]
    exact hlive

omit h in
theorem Node.of_eq {d : Disk} {di : Dinode} (ht : di.type ≠ T_FREE) :
    Node.of d di = ⟨di.attr, content d di⟩ := by
  unfold Node.of
  rw [if_neg ht]

omit h in
/-- The copies of the other inodes are still those of allocated inodes. -/
theorem Rep.live_change (h : Rep s v) (hr : 0 < (s.icache ip).ref)
    (hother : ∀ j < s.sb.nino, j ≠ (s.icache ip).inum →
      dinode s.sb s'.disk j = dinode s.sb s.disk j)
    (hcache : ∀ jp, jp ≠ ip → s'.icache jp = s.icache jp)
    (hself : 0 < (s'.icache ip).ref → (s'.icache ip).valid = true →
      (s'.icache ip).din.type = (dinode s.sb s'.disk (s'.icache ip).inum).type ∧
        (s'.icache ip).din.type ≠ T_FREE) :
    ∀ jp, 0 < (s'.icache jp).ref → (s'.icache jp).valid = true →
      (s'.icache jp).din.type = (dinode s.sb s'.disk (s'.icache jp).inum).type ∧
        (s'.icache jp).din.type ≠ T_FREE := by
  intro jp hrj hvj
  by_cases e : jp = ip
  · rw [e] at hrj hvj ⊢
    exact hself hrj hvj
  · rw [hcache jp e] at hrj hvj ⊢
    rw [hother _ (h.sound.inum jp hrj) fun hi => e (h.sound.unique jp ip hrj hr hi)]
    exact h.live jp hrj hvj

theorem Wrote.rep {src : List (BitVec 8)} {off : ℕ} (hl : v.Live ip) (W : Wrote ip off src s s') :
    Rep s' { v.store (v.ent ip).inum (v.written ip src off) with
      spent := v.spent + chunks off src.length + 1 } := by
  have hl' := h.live' hl
  have hinum : (v.ent ip).inum = (s.icache ip).inum := by rw [h.ent]; rfl
  obtain ⟨size, addrs, hentry⟩ := W.entry
  obtain ⟨htype, hfree⟩ := h.live ip hl'.ref hl'.valid
  have hi' : (s'.icache ip).inum = (s.icache ip).inum := by rw [hentry]
  have hr' : 0 < (s'.icache ip).ref := by rw [hentry]; exact hl'.ref
  have hv' : (s'.icache ip).valid = true := by rw [hentry]; exact hl'.valid
  have hsize := W.sound.size ip hr' hv'
  have haddrs := W.sound.addrs ip hr' hv'
  rw [W.sb, hi'] at hsize haddrs
  have hattr : (dinode s.sb s'.disk (s.icache ip).inum).attr = (v.written ip src off).attr := by
    rw [W.attr]
    unfold View.written
    rw [h.data hl, length_content, h.nodeOf hl'.ref, h.ent]
    rfl
  have htype' : (dinode s.sb s'.disk (s.icache ip).inum).type = (s.icache ip).din.type := by
    have := congrArg Attr.type W.attr
    rw [apply_ite Attr.type] at this
    exact this.trans (ite_eq_left_iff.mpr fun _ => htype.symm)
  have hfree' : (dinode s.sb s'.disk (s.icache ip).inum).type ≠ T_FREE := by rw [htype']; exact hfree
  refine h.change (i := (s.icache ip).inum) (x := v.written ip src off) W.sound W.toFixed W.inodes
    W.files ?_ (fun _ => ?_) (by rw [hinum]; rfl) rfl (fun jp => ?_) ?_ rfl rfl
  · rw [Node.of_eq hfree', hattr, content_congr hsize.symm haddrs.symm, W.content, ← h.data hl]
    rfl
  · exact W.noHole.congr hsize.symm haddrs.symm
  · show v.ent jp = _
    rw [h.ent]
    by_cases e : jp = ip
    · rw [e, hentry]
      rfl
    · rw [W.others jp e]
  · refine h.live_change hl'.ref W.inodes W.others fun _ _ => ?_
    rw [hi', htype', hentry]
    exact ⟨rfl, hfree⟩

theorem refines_writeFile {src : List (BitVec 8)} {off : ℕ} :
    Refines refinement (Op.code (.writeFile ip src off)) (Op.abs (.writeFile ip src off)) s v := by
  by_cases hc : v.Live ip ∧ 0 < v.outstanding
  · have hy : Op.abs (.writeFile ip src off) v = _ := if_pos hc
    obtain ⟨hl, hop⟩ := hc
    have hl' := h.live' hl
    have hdata := h.data hl
    have hx := writeFile_spec h.sound hl' (h.noHole' hl) (by rwa [h.outstanding] at hop) off src
    by_cases hfar : TooFar (v.nodeOf ip).data off src.length
    · rw [if_pos hfar] at hy
      have hfar' := hfar
      unfold TooFar at hfar'
      rw [hdata, length_content] at hfar'
      exact refines_of_eq hy (writeFile_far hfar') rfl (Nat.le_refl _) h
    · rw [if_neg hfar] at hy
      have hfar' := hfar
      unfold TooFar at hfar'
      rw [hdata, length_content] at hfar'
      refine (refines_ok hy).mpr (wp_weaken (wp_mono hx ?_) ?_)
      · intro r s' hr
        rw [if_neg hfar'] at hr
        obtain ⟨hr, W⟩ := hr
        refine ⟨hr, Wrote.rep h hl W, ?_⟩
        have := W.room
        show nfree s.sb s.disk + v.spent ≤ nfree s'.sb s'.disk + (v.spent + chunks off src.length + 1)
        omega
      · rintro e ⟨he, hlt⟩
        refine ⟨he, ?_⟩
        show nfree s.sb s.disk + v.spent < v.spent + chunks off src.length + 1
        omega
  · exact refines_of_misuse (if_neg hc)

omit h in
theorem Rep.iupdate (h : Rep s v) (hl : v.Live ip) (hbut : SoundBut s ip) (hs' : s' = s.update ip) :
    Rep s' (v.store (v.ent ip).inum { v.nodeOf ip with attr := (v.ent ip).attr }) := by
  have hl' := h.live' hl
  have hi := h.inum_lt hl
  have hinum : (v.ent ip).inum = (s.icache ip).inum := by rw [h.ent]; rfl
  have hic : s'.icache = s.icache := by rw [hs']; rfl
  have hdino : ∀ j, dinode s.sb s'.disk j = table s ip j := fun j => by rw [hs', dinode_update]
  have hother : ∀ j < s.sb.nino, j ≠ (s.icache ip).inum →
      dinode s.sb s'.disk j = dinode s.sb s.disk j := fun j _ hj => by rw [hdino, table_of_ne hj]
  have hself : dinode s.sb s'.disk (s.icache ip).inum = (s.icache ip).din := by
    rw [hdino, table_self]
  have hfile : SameFile s.disk s'.disk (s.icache ip).din := by
    have := sameFile_update hbut.layout hbut.own hi hi (by rw [table_self]; exact hl'.type)
    rwa [table_self, ← hs'] at this
  refine h.change (i := (s.icache ip).inum)
    (x := { v.nodeOf ip with attr := (v.ent ip).attr }) (hbut.update (fun e => absurd e hl'.type) hs')
    (by rw [hs']; exact ⟨rfl, rfl, rfl, rfl, rfl⟩) hother (fun j hj hne ht => ?_) ?_ (fun _ => ?_)
    (by rw [hinum]; rfl) rfl (fun jp => ?_) ?_ rfl rfl
  · have htab : table s ip j = dinode s.sb s.disk j := table_of_ne hne
    have := sameFile_update hbut.layout hbut.own hi hj (by rw [htab]; exact ht)
    rwa [htab, ← hs'] at this
  · rw [hself, Node.of_eq hl'.type, hfile.content (h.noHole' hl), ← h.data hl, h.ent]
    rfl
  · rw [hself]
    exact hfile.noHole (h.noHole' hl)
  · rw [hic]
    exact h.ent jp
  · refine h.live_change hl'.ref hother (fun jp _ => by rw [hic]) fun _ _ => ?_
    rw [hic, hself]
    exact ⟨rfl, hl'.type⟩

theorem refines_iupdate : Refines refinement (Op.code (.iupdate ip)) (Op.abs (.iupdate ip)) s v := by
  by_cases hc : v.Live ip ∧ 0 < v.outstanding
  · obtain ⟨hl, hop⟩ := hc
    have hl' := h.live' hl
    have hop' : 0 < s.outstanding := by rwa [h.outstanding] at hop
    have hed := h.sound.editing hl' hop'
    have hbut := h.sound.edit hl' (Edit.refl ip s) hed
    refine refines_of_ok (if_pos ⟨hl, hop⟩) rfl
      (Fs.iupdate_wp h.sound.layout hed.lt hop' ⟨rfl, ?_, ?_⟩)
    · exact h.iupdate hl hbut rfl
    · refine Nat.le_of_eq (nfree_congr fun c _ => ?_).symm
      exact inUse_update hed.lt
  · exact refines_of_misuse (if_neg hc)

theorem refines_ifree : Refines refinement (Op.code (.ifree ip)) (Op.abs (.ifree ip)) s v := by
  by_cases hc : v.Live ip ∧ 0 < v.outstanding
  · obtain ⟨hl, hop⟩ := hc
    have hl' := h.live' hl
    have hop' : 0 < s.outstanding := by rwa [h.outstanding] at hop
    refine refines_of_ok (if_pos ⟨hl, hop⟩) rfl (wp_mono (ifree_spec h.sound hl' hop') ?_)
    rintro _ s' hf
    refine ⟨rfl, ?_, hf.room⟩
    have hinum : (v.ent ip).inum = (s.icache ip).inum := by rw [h.ent]; rfl
    have hself : dinode s.sb s'.disk (s.icache ip).inum =
        { (s.icache ip).din with type := T_FREE, size := 0, addrs := fun _ => 0 } := by
      rw [hf.dinode, hf.entry]
    refine h.change (i := (s.icache ip).inum) hf.sound hf.toFixed hf.inodes hf.files
      (x := ⟨{ (v.ent ip).attr with type := T_FREE }, []⟩) ?_ (fun ht => ?_) (by rw [hinum]; rfl) rfl
      (fun jp => ?_) ?_ rfl rfl
    · rw [hself, h.ent]
      rfl
    · rw [hself] at ht
      exact absurd rfl ht
    · show update v.ent ip _ jp = _
      by_cases e : jp = ip
      · rw [e, update_self, hf.entry, h.ent]
        rfl
      · rw [update_of_ne e, hf.others jp e, h.ent]
    · refine h.live_change hl'.ref hf.inodes hf.others fun _ hv => ?_
      rw [hf.entry] at hv
      cases hv
  · exact refines_of_misuse (if_neg hc)

omit h in
theorem Rep.claim {type : BitVec 16} (h : Rep s v) (hi : i < s.sb.nino) (htype : type ≠ T_FREE)
    (hfree : (dinode s.sb s.disk i).type = T_FREE) (hs' : s' = s.claim i type) :
    Rep s' (v.store i ⟨⟨type, 0, 0, 0⟩, []⟩) ∧ nfree s.sb s.disk ≤ nfree s'.sb s'.disk := by
  have hic : s'.icache = s.icache := by rw [hs']; rfl
  have hsb : s'.sb = s.sb := by rw [hs']; rfl
  have hcopy : ∀ jp, 0 < (s.icache jp).ref → (s.icache jp).valid = true →
      (s.icache jp).inum ≠ i := by
    rintro jp hr hv rfl
    have := h.live jp hr hv
    exact this.2 (this.1.trans hfree)
  have hself : dinode s.sb s'.disk i = { Dinode.zero with type := type } := by
    rw [claim_dinode hs', if_pos rfl]
  have hother : ∀ j, j ≠ i → dinode s.sb s'.disk j = dinode s.sb s.disk j := by
    intro j hj
    rw [claim_dinode hs', if_neg hj]
  refine ⟨h.change (i := i) (x := ⟨⟨type, 0, 0, 0⟩, []⟩) (h.sound.claim hi hs' hfree hcopy)
    (by rw [hs']; exact ⟨rfl, rfl, rfl, rfl, rfl⟩) (fun j _ => hother j)
    (fun j hj _ ht => claim_sameFile h.sound hi hs' hj ht) ?_ ?_ rfl rfl (fun jp => ?_)
    (fun jp hr hv => ?_) rfl rfl, ?_⟩
  · rw [hself, Node.of_eq htype]
    rfl
  · rw [hself]
    intro _ bn hbn
    exact absurd hbn (Nat.not_lt_zero _)
  · rw [hic]
    exact h.ent jp
  · rw [hic] at hr hv ⊢
    rw [hother _ (hcopy jp hr hv)]
    exact h.live jp hr hv
  · rw [hsb]
    exact Nat.le_of_eq (nfree_congr fun c _ => claim_inUse hi hs' c).symm

theorem refines_claim {type : BitVec 16} :
    Refines refinement (Op.code (.claim type)) (Op.abs (.claim type)) s v := by
  by_cases hc : 0 < v.outstanding ∧ type ≠ T_FREE
  · have hy : Op.abs (.claim type) v = _ := if_pos hc
    obtain ⟨hop, htype⟩ := hc
    have hn : ∀ j, 1 ≤ j → j < 1 + (s.sb.ninodes - 1) → j < s.sb.nino := by
      intro j h₁ h₂
      have := h.sound.layout.ninodes
      omega
    have hnode : ∀ j, 1 ≤ j → j < 1 + (s.sb.ninodes - 1) →
        (v.node j).attr.type = (dinode s.sb s.disk j).type := by
      intro j h₁ h₂
      rw [h.node j (hn j h₁ h₂)]
      rfl
    have hx := iallocLoop_spec type h.sound.layout (by rwa [h.outstanding] at hop) _ _ hn
    rw [h.sb] at hy
    cases hf : v.free (s.sb.ninodes - 1) 1 with
    | none =>
      rw [hf] at hy
      refine (refines_error hy).mpr (Or.inr (wp_weaken (wp_mono hx ?_) ?_))
      · rintro i s' ⟨h₁, h₂, ht, -⟩
        exact View.free_none hf i h₁ h₂ ((hnode i h₁ h₂).trans ht)
      · rintro e ⟨rfl, -⟩
        exact Or.inl rfl
    | some i =>
      rw [hf] at hy
      obtain ⟨h₁, h₂, hfree, hused⟩ := View.free_some hf
      rw [hnode i h₁ h₂] at hfree
      refine refines_of_ok hy rfl (wp_weaken (wp_mono hx ?_) ?_)
      · rintro i' s' ⟨h₃, h₄, hfree', hused', hs'⟩
        have e : i' = i := by
          rcases Nat.lt_trichotomy i' i with hlt | e | hlt
          · exact absurd ((hnode i' h₃ h₄).trans hfree') (hused i' h₃ hlt)
          · exact e
          · exact absurd hfree (hused' i h₁ hlt)
        subst e
        exact ⟨rfl, h.claim (hn i' h₁ h₂) htype hfree hs'⟩
      · rintro e ⟨-, hall⟩
        exact hall i h₁ h₂ hfree
  · exact refines_of_misuse (if_neg hc)

omit h in
/-- What has been spent is not given back. -/
theorem Op.spends {α : Type} (o : Op α) : Spends refinement o.abs := by
  intro v a v' ho
  show v.spent ≤ v'.spent
  -- only `writei` spends
  cases o
  all_goals
    simp only [Op.abs, viget, vload, vread, vwrite] at ho
    repeat' split at ho
    all_goals
      cases ho
      try exact Nat.le_refl _
  show v.spent ≤ v.spent + _ + 1
  omega

omit h in
/-- Every operation on the store does what it does on what is seen. -/
theorem Op.refines {α : Type} (o : Op α) (h : Rep s v) : Refines refinement o.code o.abs s v := by
  cases o with
  | begin_op => exact refines_begin_op h
  | end_op => exact refines_end_op h
  | iget inum => exact refines_iget h
  | idup ip => exact refines_idup h
  | acquiresleep ip => exact refines_acquiresleep h
  | holdingsleep ip => exact refines_holdingsleep h
  | releasesleep ip => exact refines_releasesleep h
  | unref ip => exact refines_unref h
  | look ip => exact refines_look h
  | size ip => exact refines_size h
  | setAttr ip f => exact refines_setAttr h
  | iupdate ip => exact refines_iupdate h
  | load ip => exact refines_load h
  | ifree ip => exact refines_ifree h
  | claim type => exact refines_claim h
  | readFile ip off n => exact refines_readFile h
  | writeFile ip src off => exact refines_writeFile h
  | panic e => exact refines_panic

omit h in
/-- So does every thread. -/
theorem T.refines {α : Type} (t : T α) (h : Rep s v) : Refines refinement t.code t.abs s v :=
  refines_alone Op.spends (fun o _ _ => Op.refines o) t h

/-! ## What is seen of a store -/

/-- A store that holds a file system. -/
structure Consistent (s : Store) : Prop where
  sound : Sound s
  noHole : ∀ i < s.sb.nino, (dinode s.sb s.disk i).type ≠ T_FREE →
    NoHole s.disk (dinode s.sb s.disk i)
  live : ∀ ip, 0 < (s.icache ip).ref → (s.icache ip).valid = true →
    (s.icache ip).din.type = (dinode s.sb s.disk (s.icache ip).inum).type ∧
      (s.icache ip).din.type ≠ T_FREE
  readAllocs : s.readAllocs = 0

def view (s : Store) : View where
  sb := s.sb
  node i := Node.of s.disk (dinode s.sb s.disk i)
  ent ip := Entry.of (s.icache ip)
  outstanding := s.outstanding
  stale := s.stale
  spent := 0

omit h in
theorem Consistent.rep (h : Consistent s) : Rep s (view s) where
  sound := h.sound
  sb := rfl
  node _ _ := rfl
  noHole := h.noHole
  ent _ := rfl
  live := h.live
  outstanding := rfl
  stale := rfl
  readAllocs := h.readAllocs

theorem Rep.consistent : Consistent s where
  sound := h.sound
  noHole := h.noHole
  live := h.live
  readAllocs := h.readAllocs

end DuckoUnix.Inode
