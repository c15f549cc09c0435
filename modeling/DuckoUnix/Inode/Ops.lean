import DuckoUnix.Inode.Own
import DuckoUnix.Inode.Rules

/-!
# Operations keep what is owned

Every operation that a process may do keeps `Own`, and does to what the process owns what `spec` says.
-/

namespace DuckoUnix.Inode

open Lib Fs Finset Function

variable {P : Type} [Fintype P] [DecidableEq P] {R : Rules} {ext : Ip → ℕ} {v v' : View}
  {G : P → Ghost} {p q : P} {ip jp : Ip} {i j : ℕ} {g' : Ghost} {e : Entry}

/-! ## Operations -/

/-- The faults that may happen; a process that others run with waits for a lock. -/
def Rules.Stops (R : Rules) (g : Ghost) (f : Fault) : Prop :=
  ∃ e, f = .panic e ∧ (R.Panics e ∨ e = .deadlock ∧ g.alone = none)

/-- The operation does what `spec` says. -/
def Rules.Keeps {α : Type} (R : Rules) (ext : Ip → ℕ) (G : P → Ghost) (p : P) (v : View) (o : Op α) :
    Prop :=
  wp (R.Stops (G p)) o.abs
    (fun b v' => ∃ g', o.post R (G p) b g' ∧ Own R ext v' (update G p g')) v

theorem View.cached_some (h : v.cached i = some ip) : 0 < (v.ent ip).ref ∧ (v.ent ip).inum = i := by
  simpa using List.find?_some h

theorem View.cached_none (h : v.cached i = none) (ip : Ip) (hr : 0 < (v.ent ip).ref) :
    (v.ent ip).inum ≠ i := by
  have := List.find?_eq_none.mp h ip (List.mem_finRange ip)
  intro e
  exact this (by simpa using ⟨hr, e⟩)

theorem View.empty_some (h : v.empty = some ip) : (v.ent ip).ref = 0 := by
  simpa using List.find?_some h

theorem View.empty_none (h : v.empty = none) (ip : Ip) : 0 < (v.ent ip).ref := by
  have := List.find?_eq_none.mp h ip (List.mem_finRange ip)
  simpa [Nat.pos_iff_ne_zero] using this

theorem Ghost.mem_take_iff {g : Ghost} (hj : jp ≠ ip) :
    (jp, j) ∈ (g.take ip i).refs ↔ (jp, j) ∈ g.refs := by
  unfold Ghost.take
  rw [Multiset.mem_cons]
  exact or_iff_right fun h => hj (congrArg Prod.fst h)

theorem Ghost.mem_drop_iff {g : Ghost} (hj : jp ≠ ip) :
    (jp, j) ∈ (g.drop ip i).refs ↔ (jp, j) ∈ g.refs := by
  unfold Ghost.drop
  rw [Multiset.mem_erase_of_ne fun h => hj (congrArg Prod.fst h)]

section Ops

variable (H : Own R ext v G) (hown : ∀ q, q ≠ p → (G q).alone = none)
include H hown

theorem Own.setTx {b : Bool} {n : ℕ}
    (hn : n + (if (G p).tx then 1 else 0) = v.outstanding + if b then 1 else 0) :
    Own R ext { v with outstanding := n } (update G p { G p with tx := b }) := by
  refine H.frame hown rfl rfl rfl rfl rfl (fun _ _ => rfl) (fun _ => Or.inl rfl) hn fun A hA => ?_
  have h := H.alone p A hA
  exact ⟨h.node, h.others, h.free, h.locked, h.spent, h.unlinked⟩

theorem Own.begin_op (hpre : Op.pre R .begin_op (G p)) : R.Keeps ext G p v .begin_op := by
  have htx : (G p).tx = false := hpre
  refine ⟨_, rfl, H.setTx hown ?_⟩
  rw [htx]
  rfl

theorem Own.end_op (hpre : Op.pre R .end_op (G p)) : R.Keeps ext G p v .end_op := by
  have htx : (G p).tx = true := hpre
  have hpos := H.outstanding_pos htx
  refine ⟨_, rfl, H.setTx hown ?_⟩
  rw [htx]
  exact Nat.sub_add_cancel hpos

theorem Own.take (hr : 0 < (v.ent ip).ref) (hi : (v.ent ip).inum = i) :
    Own R ext (v.put ip { v.ent ip with ref := (v.ent ip).ref + 1 })
      (update G p ((G p).take ip i)) := by
  refine H.setRefs hown rfl (fun jp j hj => Ghost.mem_take_iff hj) (fun jp hj => ?_)
    (fun _ => ⟨i, Ghost.mem_take⟩) rfl ?_ (fun j hj => ?_) (fun _ => ⟨rfl, rfl, rfl⟩) (fun h0 => ?_)
    fun _ h0 => absurd h0 (Nat.succ_ne_zero _)
  · rw [Ghost.count_take, if_neg hj, Nat.add_zero]
  · rw [Ghost.count_take, if_pos rfl]
    show (v.ent ip).ref + 1 + _ = _
    omega
  · show (v.ent ip).inum = j
    rcases Multiset.mem_cons.mp hj with h | h
    · exact hi.trans (congrArg Prod.snd h).symm
    · exact H.inum p ip j h
  · exact absurd h0 (Nat.ne_of_gt hr)

theorem Own.takeNew (h0 : (v.ent ip).ref = 0) (hi : i < R.sb.nino)
    (hnone : ∀ jp, 0 < (v.ent jp).ref → (v.ent jp).inum ≠ i) :
    Own R ext (v.put ip { v.ent ip with inum := i, ref := 1, valid := false })
      (update G p ((G p).take ip i)) := by
  have hno : ∀ q j, (ip, j) ∉ (G q).refs := fun q j h => Nat.ne_of_gt (H.ref_pos h) h0
  have hcount : (G p).count ip = 0 := by
    unfold Ghost.count
    rw [Multiset.countP_eq_zero]
    rintro ⟨jp, j⟩ hm rfl
    exact hno p j hm
  refine H.setRefs hown rfl (fun jp j hj => Ghost.mem_take_iff hj) (fun jp hj => ?_)
    (fun _ => ⟨i, Ghost.mem_take⟩) rfl ?_ (fun j hj => ?_) (fun hr => ?_)
    (fun _ _ => ⟨hi, rfl, hnone⟩) fun _ h1 => absurd h1 Nat.one_ne_zero
  · rw [Ghost.count_take, if_neg hj, Nat.add_zero]
  · rw [Ghost.count_take, if_pos rfl]
    show 1 + _ = _
    omega
  · rcases Multiset.mem_cons.mp hj with h | h
    · exact (congrArg Prod.snd h).symm
    · exact absurd h (hno p j)
  · exact absurd h0 (Nat.ne_of_gt hr)

theorem Own.iget (hpre : Op.pre R (.iget i) (G p)) : R.Keeps ext G p v (.iget i) := by
  obtain ⟨hi, hroom⟩ := hpre
  show wp _ (viget i) _ v
  unfold wp viget
  rw [H.sb, if_pos hi]
  cases hc : v.cached i with
  | some ip =>
    obtain ⟨hr, hinum⟩ := View.cached_some hc
    refine ⟨_, ⟨fun jp j hm => ?_, rfl⟩, H.take hown hr hinum⟩
    have hj := H.inum p jp j hm
    refine ⟨fun e => ?_, fun e => H.unique jp ip (H.ref_pos hm) hr ?_⟩
    · rw [← hj, e, hinum]
    · rw [hj, e, hinum]
  | none =>
    have hnone := View.cached_none hc
    cases he : v.empty with
    | none =>
      refine ⟨_, rfl, Or.inl (hroom.resolve_right ?_)⟩
      rintro ⟨A, hA, hlt⟩
      obtain ⟨ip, h0⟩ := H.exists_empty hA hlt
      exact Nat.ne_of_gt (View.empty_none he ip) h0
    | some ip =>
      have h0 := View.empty_some he
      refine ⟨_, ⟨fun jp j hm => ?_, rfl⟩, H.takeNew hown h0 hi hnone⟩
      have hr := H.ref_pos hm
      refine iff_of_false (fun e => ?_) fun e => hnone jp hr ((H.inum p jp j hm).trans e)
      rw [e] at hr
      exact Nat.ne_of_gt hr h0

theorem Own.idup (hpre : Op.pre R (.idup ip) (G p)) : R.Keeps ext G p v (.idup ip) := by
  obtain ⟨i, hi⟩ := hpre
  have hr := H.ref_pos hi
  have hinum := H.inum p ip i hi
  refine wp_of_ok (if_pos hr) ⟨_, fun j hj => ?_, H.take hown hr hinum⟩
  rw [H.inum_unique hi hj]

theorem Own.unref (hpre : Op.pre R (.unref ip) (G p)) : R.Keeps ext G p v (.unref ip) := by
  obtain ⟨⟨i, hi, hdone⟩, hheld⟩ := hpre
  have hr := H.ref_pos hi
  have hinum := H.inum p ip i hi
  have hcount := Ghost.count_pos hi
  refine wp_of_ok (if_pos hr) ⟨(G p).drop ip i, fun j hj => ?_, H.setRefs hown rfl
    (fun jp j hj => Ghost.mem_drop_iff hj) (fun jp hj => ?_) (fun h => absurd hheld h) rfl ?_
    (fun j hj => ?_) (fun _ => ⟨rfl, rfl, rfl⟩) (fun h0 => absurd h0 (Nat.ne_of_gt hr))
    fun _ h0 A hA => ?_⟩
  · rw [H.inum_unique hi hj]
  · have := Ghost.count_drop hi jp
    rwa [if_neg hj, Nat.add_zero] at this
  · have := Ghost.count_drop hi ip
    rw [if_pos rfl] at this
    show (v.ent ip).ref - 1 + _ = _
    omega
  · exact H.inum p ip j (Multiset.mem_of_mem_erase hj)
  · have hothers := (H.alone p A hA).others ip hr
    have h0' : (v.ent ip).ref - 1 = 0 := h0
    rw [hinum] at hothers ⊢
    exact hdone A hA (by omega)

theorem Own.acquiresleep (hpre : Op.pre R (.acquiresleep ip) (G p)) :
    R.Keeps ext G p v (.acquiresleep ip) := by
  obtain ⟨⟨i, hi⟩, hfree⟩ := hpre
  have hr := H.ref_pos hi
  have hinum := H.inum p ip i hi
  cases hl : (v.ent ip).locked with
  | true =>
    refine wp_of_error (if_pos hl) ⟨_, rfl, ?_⟩
    cases hA : (G p).alone with
    | none => exact Or.inr ⟨rfl, rfl⟩
    | some A =>
      rcases hfree with h | h | h
      · rw [hA] at h
        cases h
      · exact Or.inl h
      · exact absurd h ((H.alone p A hA).locked ip hl)
  | false =>
    have hnone := H.held_none hl
    have hk : ∀ q, ¬ (G q).Knows ip := by
      rintro q ⟨a, n, h⟩
      rw [hnone q] at h
      cases h
    refine wp_of_ok (if_neg (by rw [hl]; exact Bool.false_ne_true)) ⟨_, ⟨hnone p, rfl⟩,
      H.setLock hown hi (fun q _ => hnone q) rfl rfl rfl ?_ (fun a n h => by cases h)
        (fun _ => ⟨?_, ?_⟩) (Or.inr rfl)⟩
    · exact iff_of_true rfl (Option.some_ne_none _)
    · rw [← hinum]
      exact H.clean ip hr hk
    · rw [← hinum]
      exact H.good_nodeOf hr hk

omit hown in
theorem Own.same : Own R ext v (update G p (G p)) := by
  rw [update_eq_self]
  exact H

omit hown in
theorem Own.holdingsleep (hpre : Op.pre R (.holdingsleep ip) (G p)) :
    R.Keeps ext G p v (.holdingsleep ip) :=
  ⟨_, ⟨(H.locked ip).mpr ⟨p, hpre⟩, rfl⟩, H.same⟩

theorem Own.releasesleep (hpre : Op.pre R (.releasesleep ip) (G p)) :
    R.Keeps ext G p v (.releasesleep ip) := by
  have hheld : (G p).held ip ≠ none := by
    rcases hpre with h | ⟨i, n, -, h, -⟩
    all_goals
      rw [h]
      exact Option.some_ne_none _
  obtain ⟨i, hi⟩ := H.owner p ip hheld
  have hr := H.ref_pos hi
  have hinum := H.inum p ip i hi
  -- the copy in memory is the one on the disk
  have hclean : ((v.ent ip).valid = true →
      (v.ent ip).attr = (v.nodeOf ip).attr ∧ (v.nodeOf ip).attr.type ≠ T_FREE) ∧
      ((v.nodeOf ip).attr.type ≠ T_FREE → R.Good i (v.nodeOf ip)) := by
    rcases hpre with h | ⟨j, n, hj, h, hgood⟩
    · have hk := H.not_knows h
      refine ⟨H.clean ip hr hk, ?_⟩
      rw [← hinum]
      exact H.good_nodeOf hr hk
    · obtain ⟨-, hattr, hn, ht, -⟩ := H.known p ip _ n h
      rw [hn, hattr]
      exact ⟨fun _ => ⟨rfl, ht⟩, fun _ => H.inum_unique hi hj ▸ hgood⟩
  have hstale : (v.stale || ((v.ent ip).valid && decide ((v.ent ip).attr ≠ (v.nodeOf ip).attr))) =
      v.stale := by
    cases hv : (v.ent ip).valid with
    | false => rw [Bool.false_and, Bool.or_false]
    | true =>
      rw [(hclean.1 hv).1, decide_eq_false (fun h => h rfl), Bool.and_false, Bool.or_false]
  have hok : Op.abs (.releasesleep ip) v = .ok ((), v.put ip { v.ent ip with locked := false }) := by
    refine (if_pos hr).trans ?_
    rw [hstale]
    rfl
  refine wp_of_ok hok ⟨_, rfl, H.setLock hown hi (H.others_none hheld) rfl rfl rfl ?_
    (fun a n h => by cases h) (fun _ => ?_) (Or.inr rfl)⟩
  · exact iff_of_false Bool.false_ne_true fun h => h rfl
  · rw [← H.nodeOf hi]
    exact hclean

/-- The process gets to know an inode that it has locked. -/
theorem Own.learn (hheld : (G p).held ip = some .unknown) (hi : (ip, i) ∈ (G p).refs)
    (ht : (v.node i).attr.type ≠ T_FREE) :
    R.Seen (G p) i (v.node i) ∧ Own R ext (v.put ip { v.ent ip with
      valid := true, attr := (v.node i).attr }) (update G p ((G p).hold ip
        (.known (v.node i).attr (v.node i)))) := by
  have hsome := Ghost.held_ne hheld
  refine ⟨⟨ht, ?_, fun A hA => ?_⟩, H.setLock hown hi (H.others_none hsome) rfl rfl rfl
    (H.locked_iff hsome) (fun a n h => ?_) (fun h => absurd rfl (h _ _)) (Or.inl rfl)⟩
  · have := H.good_nodeOf (H.ref_pos hi) (H.not_knows hheld)
    rw [H.nodeOf hi, H.inum p ip i hi] at this
    exact this ht
  · rw [(H.alone p A hA).node]
  · cases h
    exact ⟨rfl, rfl, rfl, ht, rfl⟩

theorem Own.look (hpre : Op.pre R (.look ip) (G p)) : R.Keeps ext G p v (.look ip) := by
  obtain ⟨i, hi⟩ := hpre
  have hr := H.ref_pos hi
  have hinum := H.inum p ip i hi
  have hlooks : ∀ j, (ip, j) ∈ (G p).refs → (G p).Looks ip j
      ⟨(v.ent ip).inum, (v.ent ip).ref, (v.ent ip).valid, (v.ent ip).attr⟩ := by
    intro j hj
    have hji := H.inum p ip j hj
    refine ⟨hji, hr, fun a n h => ?_, fun A hA => ?_, fun A hA hinv => ?_⟩
    · obtain ⟨h₁, h₂, -⟩ := H.known p ip a n h
      exact ⟨h₁, h₂⟩
    · rw [← hji]
      exact (H.alone p A hA).others ip hr
    · by_contra hd
      have hlt : j < v.sb.nino := by
        rw [H.sb, ← hji]
        exact H.lt ip hr
      obtain ⟨jp, hr', hij, hval⟩ := (H.alone p A hA).unlinked j hlt hd
      rw [H.unique jp ip hr' hr (hij.trans hji.symm)] at hval
      exact Bool.false_ne_true (hinv.symm.trans hval)
  by_cases hu : (G p).held ip = some .unknown ∧ (v.ent ip).valid = true
  · obtain ⟨hheld, hval⟩ := hu
    obtain ⟨hattr, ht⟩ := H.clean ip hr (H.not_knows hheld) hval
    rw [H.nodeOf hi] at hattr ht
    obtain ⟨hseen, hown'⟩ := H.learn hown hheld hi ht
    have hput : v.put ip { v.ent ip with valid := true, attr := (v.node i).attr } = v := by
      rw [← hattr, ← hval]
      exact congrArg (fun f => { v with ent := f }) (update_eq_self ip v.ent)
    rw [hput] at hown'
    refine ⟨_, fun j hj => ⟨hlooks j hj, Or.inr ⟨v.node i, hheld, hval, hattr, ?_, rfl⟩⟩, hown'⟩
    rw [H.inum_unique hi hj]
    exact hseen
  · exact ⟨_, fun j hj => ⟨hlooks j hj, Or.inl ⟨hu, rfl⟩⟩, H.same⟩

omit hown in
theorem Own.size (hpre : Op.pre R (.size ip) (G p)) : R.Keeps ext G p v (.size ip) := by
  obtain ⟨a, n, h⟩ := hpre
  obtain ⟨hlive, -, hn, -⟩ := H.live h
  refine wp_of_ok (if_pos hlive) ⟨_, fun a' n' h' => ⟨?_, rfl⟩, H.same⟩
  rw [h] at h'
  cases h'
  rw [hn]

omit hown in
theorem Own.readFile {off k : ℕ} (hpre : Op.pre R (.readFile ip off k) (G p)) :
    R.Keeps ext G p v (.readFile ip off k) := by
  obtain ⟨a, n, h⟩ := hpre
  obtain ⟨hlive, -, hn, -⟩ := H.live h
  have hok : Op.abs (.readFile ip off k) v =
      .ok (if n.data.length < off ∨ (off + k) % UINT < off then none
        else some ((n.data.drop off).take k), v) := by
    refine (if_pos hlive).trans ?_
    rw [hn]
    split_ifs
    · rfl
    · rfl
  refine wp_of_ok hok ⟨_, fun a' n' h' => ⟨?_, rfl⟩, H.same⟩
  rw [h] at h'
  cases h'
  rfl

theorem Own.setAttr {f : Attr → Attr} (hpre : Op.pre R (.setAttr ip f) (G p)) :
    R.Keeps ext G p v (.setAttr ip f) := by
  obtain ⟨a, n, h, htype⟩ := hpre
  obtain ⟨hlive, hattr, hn, ht, hat⟩ := H.live h
  have hsome := Ghost.held_ne h
  obtain ⟨i, hi⟩ := H.owner p ip hsome
  rw [← hattr] at htype
  refine wp_of_ok (if_pos ⟨hlive, htype⟩) ⟨_, fun a' n' h' => ?_, H.setLock hown hi
    (H.others_none hsome) rfl rfl rfl (H.locked_iff hsome) (fun a' n' h' => ?_)
    (fun h' => absurd rfl (h' (f a) n)) (Or.inr rfl)⟩
  · rw [h] at h'
    cases h'
    rfl
  · cases h'
    refine ⟨hlive.2, congrArg f hattr, (H.nodeOf hi).symm.trans hn, ht, ?_⟩
    rw [← hat, ← hattr]
    exact htype

omit hown H in
theorem View.put_self : v.put ip (v.ent ip) = v := by
  unfold View.put
  rw [update_eq_self]

/-- The process that has locked an inode changes it on the disk. -/
theorem Own.change {a : Attr} {n n' : Node} (h : (G p).held ip = some (.known a n))
    (hi : (ip, i) ∈ (G p).refs) (ht : n'.attr.type = n.attr.type) :
    Own R ext (v.store i n') (update G p (((G p).hold ip (.known a n')).store i n')) := by
  obtain ⟨hlive, hattr, hn, hfree, hat⟩ := H.live h
  have hsome := Ghost.held_ne h
  have hput : v.store i n' = (v.store i n').put ip (v.ent ip) := View.put_self.symm
  refine H.setHeld hown hi (H.others_none hsome) rfl hput rfl rfl (H.locked_iff hsome)
    (fun a' m h' => ?_) (fun h' => absurd rfl (h' a n')) (Or.inl hlive.2)
  cases h'
  exact ⟨hlive.2, hattr, rfl, by rwa [ht], by rw [ht, hat]⟩

theorem Own.iupdate (hpre : Op.pre R (.iupdate ip) (G p)) : R.Keeps ext G p v (.iupdate ip) := by
  obtain ⟨htx, ⟨i, hi⟩, a, n, h⟩ := hpre
  obtain ⟨hlive, hattr, hn, hfree, hat⟩ := H.live h
  have hinum := H.inum p ip i hi
  have hok : Op.abs (.iupdate ip) v = .ok ((), v.store i { n with attr := a }) := by
    refine (if_pos ⟨hlive, H.outstanding_pos htx⟩).trans ?_
    rw [hattr, hn, hinum]
  refine wp_of_ok hok ⟨_, fun j a' n' hj h' => ?_, H.change hown h hi hat⟩
  rw [h] at h'
  cases h'
  rw [H.inum_unique hi hj]

theorem Own.load (hpre : Op.pre R (.load ip) (G p)) : R.Keeps ext G p v (.load ip) := by
  obtain ⟨⟨i, hi⟩, h, hheld, hsafe⟩ := hpre
  have hr := H.ref_pos hi
  have hnode := H.nodeOf hi
  cases h with
  | known a n =>
    obtain ⟨hlive, -⟩ := H.live hheld
    refine wp_of_ok ((if_pos hr).trans (if_neg ?_)) ⟨_, ⟨fun _ _ _ => rfl, fun h' => ?_⟩, H.same⟩
    · rw [hlive.2]
      exact fun h' => nomatch h'
    · rw [hheld] at h'
      cases h'
  | unknown =>
    -- what follows if the inode is allocated
    have hdone : ∀ v', v' = v.put ip { v.ent ip with valid := true, attr := (v.node i).attr } →
        (v.node i).attr.type ≠ T_FREE → ∃ g', Op.post R (.load ip) (G p) () g' ∧
          Own R ext v' (update G p g') := by
      intro v' hv' ht
      obtain ⟨hseen, hown'⟩ := H.learn hown hheld hi ht
      refine ⟨_, ⟨fun a n h' => ?_, fun _ j hj => ⟨v.node i, ?_, rfl⟩⟩, hv' ▸ hown'⟩
      · rw [hheld] at h'
        cases h'
      · rw [H.inum_unique hi hj]
        exact hseen
    cases hval : (v.ent ip).valid with
    | true =>
      obtain ⟨hattr, ht⟩ := H.clean ip hr (H.not_knows hheld) hval
      rw [hnode] at hattr ht
      refine wp_of_ok ((if_pos hr).trans (if_neg (by rw [hval]; exact fun h => nomatch h)))
        (hdone v ?_ ht)
      rw [← hattr, ← hval]
      exact View.put_self.symm
    | false =>
      by_cases ht : (v.node i).attr.type = T_FREE
      · refine wp_of_error ((if_pos hr).trans ((if_pos hval).trans (if_pos ?_))) ⟨_, rfl, Or.inl ?_⟩
        · rw [hnode]
          exact ht
        · refine (hsafe rfl).resolve_right ?_
          rintro ⟨A, j, hA, hj, hne⟩
          rw [(H.alone p A hA).node, H.inum_unique hi hj] at hne
          exact hne ht
      · refine wp_of_ok ((if_pos hr).trans ((if_pos hval).trans (if_neg ?_))) (hdone _ ?_ ht)
        · rw [hnode]
          exact ht
        · rw [hnode]

theorem Own.ifree (hpre : Op.pre R (.ifree ip) (G p)) : R.Keeps ext G p v (.ifree ip) := by
  obtain ⟨htx, ⟨i, hi⟩, a, n, h⟩ := hpre
  obtain ⟨hlive, hattr, hn, hfree, hat⟩ := H.live h
  have hsome := Ghost.held_ne h
  have hinum := H.inum p ip i hi
  refine wp_of_ok (if_pos ⟨hlive, H.outstanding_pos htx⟩)
    ⟨((G p).hold ip .unknown).store i ⟨{ a with type := T_FREE }, []⟩, fun j a' n' hj h' => ?_, ?_⟩
  · rw [h] at h'
    cases h'
    rw [H.inum_unique hi hj]
  · rw [hinum, hattr]
    exact H.setHeld hown hi (H.others_none hsome) rfl rfl rfl rfl (H.locked_iff hsome)
      (fun a' m h' => by cases h')
      (fun _ => ⟨fun h' => absurd h' Bool.false_ne_true, fun h' => absurd rfl h'⟩)
      (Or.inr (Or.inl rfl))

theorem Own.spend (k : ℕ) :
    Own R ext { v with spent := v.spent + k } (update G p ((G p).spend k)) := by
  refine H.frame hown rfl rfl rfl rfl rfl (fun _ _ => rfl) (fun _ => Or.inl rfl) rfl fun A hA => ?_
  obtain ⟨A₀, hA₀, rfl⟩ := Option.map_eq_some_iff.mp hA
  have h := H.alone p A₀ hA₀
  exact ⟨h.node, h.others, h.free, h.locked, congrArg (· + k) h.spent, h.unlinked⟩

theorem Own.writeFile {src : List (BitVec 8)} {off : ℕ}
    (hpre : Op.pre R (.writeFile ip src off) (G p)) : R.Keeps ext G p v (.writeFile ip src off) := by
  obtain ⟨htx, ⟨i, hi⟩, a, n, h⟩ := hpre
  obtain ⟨hlive, hattr, hn, hfree, hat⟩ := H.live h
  have hinum := H.inum p ip i hi
  have hlive' := (⟨hlive, H.outstanding_pos htx⟩ : v.Live ip ∧ 0 < v.outstanding)
  by_cases hfar : TooFar n.data off src.length
  · refine wp_of_ok ((if_pos hlive').trans (if_pos ?_)) ⟨_, fun j a' n' hj h' => ?_, H.same⟩
    · rw [hn]
      exact hfar
    · rw [h] at h'
      cases h'
      rw [if_pos hfar]
      exact ⟨rfl, rfl⟩
  · have hwritten : v.written ip src off = n.write a src off := by
      unfold View.written Node.write
      rw [hn, hattr]
    refine wp_of_ok ((if_pos hlive').trans (if_neg ?_))
      ⟨(G p).write ip i a n src off, fun j a' n' hj h' => ?_, ?_⟩
    · rw [hn]
      exact hfar
    · rw [h] at h'
      cases h'
      rw [if_neg hfar, H.inum_unique hi hj]
      exact ⟨rfl, rfl⟩
    · have htype : (n.write a src off).attr.type = n.attr.type := by
        unfold Node.write
        dsimp only
        split_ifs
        · exact hat
        · rfl
      have hchange := H.change hown h hi htype
      have hown' : ∀ q, q ≠ p → (update G p (((G p).hold ip
          (.known a (n.write a src off))).store i (n.write a src off)) q).alone = none := by
        intro q hq
        rw [update_of_ne hq]
        exact hown q hq
      have hspend := hchange.spend hown' (chunks off src.length + 1)
      rw [update_self, update_idem] at hspend
      rw [hwritten, hinum]
      exact hspend

theorem Own.claimed {n : Node} (hfree : (v.node i).attr.type = T_FREE) (hgood : R.Good i n) :
    Own R ext (v.store i n) (update G p (((G p).store i n).bear i)) := by
  refine H.frame hown rfl rfl rfl rfl rfl (fun j hj => ?_) (fun j => ?_) rfl fun A hA => ?_
  · refine update_of_ne (fun e => hj ?_) _ _
    rw [e]
    exact hfree
  · by_cases e : j = i
    · subst e
      have hn : (v.store j n).node j = n := update_self _ _ _
      rw [hn]
      exact Or.inr hgood
    · exact Or.inl (update_of_ne e _ _)
  · obtain ⟨A₁, hA₁, rfl⟩ := Option.map_eq_some_iff.mp hA
    obtain ⟨A₀, hA₀, rfl⟩ := Option.map_eq_some_iff.mp hA₁
    have h := H.alone p A₀ hA₀
    refine ⟨?_, h.others, h.free, h.locked, h.spent, fun j hlt hj => h.unlinked j hlt fun hd => hj ?_⟩
    · show update A₀.node i n = update v.node i n
      rw [h.node]
    · by_cases e : j = i
      · exact Or.inl (Or.inl e)
      · refine hd.imp Or.inr fun hd => ?_
        show (update A₀.node i n j).attr.type = _ ∨
          (update A₀.node i n j).attr.nlink ≠ _
        rw [update_of_ne e]
        exact hd

theorem Own.claim {type : BitVec 16} (hpre : Op.pre R (.claim type) (G p)) :
    R.Keeps ext G p v (.claim type) := by
  obtain ⟨htx, htype, hgood, hroom⟩ := hpre
  have hc : 0 < v.outstanding ∧ type ≠ T_FREE := ⟨H.outstanding_pos htx, htype⟩
  have hsb := H.sb
  show wp _ (fun v => if 0 < v.outstanding ∧ type ≠ T_FREE then _ else _) _ v
  unfold wp
  dsimp only
  rw [if_pos hc]
  cases hf : v.free (v.sb.ninodes - 1) 1 with
  | none =>
    refine ⟨_, rfl, Or.inl (hroom.resolve_right ?_)⟩
    rintro ⟨A, i, hA, h₁, h₂, hfree⟩
    rw [(H.alone p A hA).node] at hfree
    rw [← hsb] at h₂
    exact View.free_none hf i h₁ (by omega) hfree
  | some i =>
    obtain ⟨h₁, h₂, hfree, -⟩ := View.free_some hf
    rw [hsb] at h₂
    have hlt : i < R.sb.ninodes := by omega
    refine ⟨_, ⟨h₁, hlt, fun A hA => ?_, rfl⟩, H.claimed hown hfree (hgood i)⟩
    rw [(H.alone p A hA).node]
    exact hfree

omit hown H in
theorem keeps_panic {α : Type} {e : Panic} (hpre : Op.pre R (.panic e : Op α) (G p)) :
    R.Keeps ext G p v (.panic e : Op α) :=
  ⟨e, rfl, Or.inl hpre⟩

/-- Every operation that a process may do keeps what is owned. -/
theorem Own.op {α : Type} {o : Op α} (hpre : o.pre R (G p)) : R.Keeps ext G p v o := by
  cases o with
  | begin_op => exact H.begin_op hown hpre
  | end_op => exact H.end_op hown hpre
  | iget inum => exact H.iget hown hpre
  | idup ip => exact H.idup hown hpre
  | acquiresleep ip => exact H.acquiresleep hown hpre
  | holdingsleep ip => exact H.holdingsleep hpre
  | releasesleep ip => exact H.releasesleep hown hpre
  | unref ip => exact H.unref hown hpre
  | look ip => exact H.look hown hpre
  | size ip => exact H.size hpre
  | setAttr ip f => exact H.setAttr hown hpre
  | iupdate ip => exact H.iupdate hown hpre
  | load ip => exact H.load hown hpre
  | ifree ip => exact H.ifree hown hpre
  | claim type => exact H.claim hown hpre
  | readFile ip off n => exact H.readFile hpre
  | writeFile ip src off => exact H.writeFile hown hpre
  | panic e => exact keeps_panic hpre

end Ops

end DuckoUnix.Inode
