import DuckoUnix.Bio.Unique

/-!
# The buffer cache is a copy of the disk

A `bread` returns what was last stored into its block, evictions or not, and a dirty buffer keeps
its block. The driver tells devices apart by their last bit, so the data is right as long as each
drive is used under one device number.
-/

namespace DuckoUnix.Bcache

open Lib Bio Function

variable {N : ℕ} {s s' : State N} {i j : Fin NBUF} {p q : Fin N} {k k' : Key}
  {l l' : List (Fin NBUF)} {name : ℕ → ℕ} {x : Buf N} {t : Bool} {ph : Phase}

/-! ## The data -/

/-- The block is named by the device number that `name` gives its drive. -/
def Named (name : ℕ → ℕ) (k : Key) : Prop := k.1 = name (k.1 % 2)

instance : Decidable (Named name k) := inferInstanceAs (Decidable (_ = _))

theorem Named.eq_of_place (hk : Named name k) (hk' : Named name k') (h : place k = place k') :
    k = k' := by
  obtain ⟨h1, h2⟩ := Prod.ext_iff.mp h
  have h1 : k.1 % 2 = k'.1 % 2 := h1
  refine Prod.ext ?_ h2
  rw [hk, hk', h1]

def Clean (s : State N) (k : Key) : Prop :=
  ∀ i, key (s.buf i) = k → (s.buf i).dirty = false ∧ s.touched i = false

/-- Buffers and drives have the latest data of their blocks. -/
structure Coherent (name : ℕ → ℕ) (s : State N) : Prop where
  named : ∀ i, InUse (s.buf i) → Named name (key (s.buf i))
  data : ∀ i, (s.buf i).valid = true → (s.buf i).data = s.latest (key (s.buf i))
  disk : ∀ k, Named name k → Clean s k → s.disk (place k) = s.latest k

theorem binit_coherent (disk : Key → Block) : Coherent name (binit disk : State N) where
  named := fun i hi => absurd hi (by simp [InUse, binit])
  data := fun i hi => absurd hi Bool.false_ne_true
  disk := fun k _ _ => rfl

theorem Changes.clean_self (hc : Changes s s' i x t p ph) (h : Clean s' k) (hk : key x = k) :
    x.dirty = false ∧ t = false := by
  have := h i (by rw [hc.buf, update_self]; exact hk)
  rwa [hc.buf, hc.touched, update_self, update_self] at this

theorem Changes.clean (hc : Changes s s' i x t p ph) (h : Clean s' k)
    (hi : key (s.buf i) = k → (s.buf i).dirty = false ∧ s.touched i = false) : Clean s k := by
  intro j hj
  by_cases e : j = i
  · rw [e] at hj ⊢
    exact hi hj
  · have := h j (by rw [hc.buf, update_of_ne e]; exact hj)
    rwa [hc.buf, hc.touched, update_of_ne e, update_of_ne e] at this

theorem Coherent.change (h : Coherent name s) (hc : Changes s s' i x t p ph)
    (hnamed : InUse x → Named name (key x)) (hdata : x.valid = true → x.data = s'.latest (key x))
    (hlatest : ∀ j, j ≠ i → (s.buf j).valid = true →
      s'.latest (key (s.buf j)) = s.latest (key (s.buf j)))
    (hdisk : ∀ k, Named name k → Clean s' k → s'.disk (place k) = s'.latest k) :
    Coherent name s' where
  named := by
    intro j hj
    rw [hc.buf] at hj ⊢
    by_cases e : j = i
    · rw [e, update_self] at hj ⊢
      exact hnamed hj
    · rw [update_of_ne e] at hj ⊢
      exact h.named j hj
  data := by
    intro j hj
    rw [hc.buf] at hj ⊢
    by_cases e : j = i
    · rw [e, update_self] at hj ⊢
      exact hdata hj
    · rw [update_of_ne e] at hj ⊢
      rw [hlatest j e hj, h.data j hj]
  disk := hdisk

/-- A step that neither stores into a block nor writes one. -/
theorem Coherent.keep (h : Coherent name s) (hc : Changes s s' i x t p ph)
    (hdisk : s'.disk = s.disk) (hlatest : s'.latest = s.latest) (hkey : key x = key (s.buf i))
    (hnamed : InUse x → Named name (key (s.buf i)))
    (hdata : x.valid = true → x.data = s.latest (key (s.buf i)))
    (hclean : x.dirty = false → t = false → (s.buf i).dirty = false ∧ s.touched i = false) :
    Coherent name s' := by
  refine h.change hc (by rwa [hkey]) (by rwa [hkey, hlatest]) (fun _ _ _ => by rw [hlatest])
    fun k hk hk' => ?_
  rw [hdisk, hlatest]
  refine h.disk k hk (hc.clean hk' fun e => ?_)
  obtain ⟨hd, ht⟩ := hc.clean_self hk' (hkey.trans e)
  exact hclean hd ht

/-! ## Steps keep the data right -/

/-- The device of every `bget` is the one that `name` gives its drive. -/
def Act.Named (name : ℕ → ℕ) : Act N → Prop
  | .bget _ k => Bcache.Named name k
  | _ => True

instance (a : Act N) : Decidable (a.Named name) := by
  unfold Act.Named; split <;> infer_instance

theorem Inv.reading (h : Inv s l) (hp : s.phase p = .read i k) :
    key (s.buf i) = k ∧ InUse (s.buf i) := by
  obtain ⟨hk, hlock, -⟩ := h.ok hp rfl
  have hr := (h.buf i).refcnt
  rw [held, hlock, Option.isSome_some, if_pos rfl] at hr
  exact ⟨hk, .inl (by omega)⟩

theorem Coherent.disk_of_read (hc : Coherent name s) (h : Inv s l) (hp : s.phase p = .read i k) :
    s.disk (place k) = s.latest k := by
  obtain ⟨hk, huse⟩ := h.reading hp
  have hinvalid : (s.buf i).valid = false := (h.ok hp rfl).2.2
  have hother : ∀ j, key (s.buf j) = k → (s.buf j).valid = false := by
    intro j hj
    cases e : (s.buf j).valid with
    | false => rfl
    | true =>
      obtain rfl := h.unique j i (inUse_of_valid e) huse (hj.trans hk.symm)
      rw [hinvalid] at e
      cases e
  refine hc.disk k (hk ▸ hc.named i huse) fun j hj => ⟨?_, ?_⟩
  · cases e : (s.buf j).dirty with
    | false => rfl
    | true => exact absurd ((h.buf j).dirty e) (by rw [hother j hj]; exact nofun)
  · cases e : s.touched j with
    | false => rfl
    | true => exact absurd ((h.buf j).touched e).2 (by rw [hother j hj]; exact nofun)

theorem Coherent.store (hc : Coherent name s) (h : Inv s l) (huse : InUse (s.buf i)) {d : Block}
    (hch : Changes s s' i { s.buf i with data := d } true p ph) (hdisk : s'.disk = s.disk)
    (hlatest : s'.latest = update s.latest (key (s.buf i)) d) : Coherent name s' := by
  refine hc.change hch (fun _ => hc.named i huse) (fun _ => ?_) (fun j hj hv => ?_)
    fun k hk hclean => ?_
  · rw [hlatest]
    exact (update_self (key (s.buf i)) d s.latest).symm
  · rw [hlatest, update_of_ne]
    exact fun hk => hj (h.unique j i (inUse_of_valid hv) huse hk)
  · by_cases e : key (s.buf i) = k
    · -- the store is in the cache only
      cases (hch.clean_self hclean e).2
    · rw [hdisk, hlatest, update_of_ne (Ne.symm e)]
      exact hc.disk k hk (hch.clean hclean fun hk => absurd hk e)

theorem Coherent.bwrite (hc : Coherent name s) (hvalid : (s.buf i).valid = true)
    (hch : Changes s s' i { s.buf i with valid := true, dirty := false } t p ph)
    (hdisk : s'.disk = update s.disk (place (key (s.buf i))) (s.buf i).data)
    (hlatest : s'.latest = s.latest) : Coherent name s' := by
  have hnamed := hc.named i (inUse_of_valid hvalid)
  refine hc.change hch (fun _ => hnamed) (fun _ => ?_) (fun _ _ _ => by rw [hlatest])
    fun k hk hclean => ?_
  · rw [hlatest]
    exact hc.data i hvalid
  · rw [hdisk, hlatest]
    by_cases e : key (s.buf i) = k
    · rw [e, update_self, ← e]
      exact hc.data i hvalid
    · rw [update_of_ne fun hpl => e (hk.eq_of_place hnamed hpl).symm]
      exact hc.disk k hk (hch.clean hclean fun hk => absurd hk e)

theorem step_coherent {a : Act N} (hc : Coherent name s) (h : Inv s l) (ha : a.Named name)
    (hs : step s a = some s') : Coherent name s' := by
  cases step_effect h hs with
  | hit hp hl hk hfirst =>
    exact hc.keep changes_set rfl rfl rfl (fun _ => hk ▸ ha) (hc.data _) And.intro
  | recycle hp hmiss hi =>
    obtain ⟨-, -, htouched⟩ := h.unused_free hi
    refine hc.change changes_set (fun _ => ha) nofun (fun _ _ _ => rfl) fun k' hk' hclean => ?_
    exact hc.disk k' hk' (changes_set.clean hclean fun _ => ⟨hi.2, htouched⟩)
  | acquire hp hlock => exact hc.keep changes_set rfl rfl rfl (hc.named _) (hc.data _) And.intro
  | @read p i k hp =>
    obtain ⟨hkey, huse⟩ := h.reading hp
    refine hc.keep changes_set rfl rfl rfl (fun _ => hc.named i huse) (fun _ => ?_) And.intro
    rw [hkey]
    exact hc.disk_of_read h hp
  | @store p i d hp hlock =>
    exact hc.store h (inUse_of_valid (h.holder_valid hp hlock)) ⟨rfl, rfl, rfl⟩ rfl rfl
  | @bwrite p i hp hlock => exact hc.bwrite (h.holder_valid hp hlock) ⟨rfl, rfl, rfl⟩ rfl rfl
  | @log_write p i hp hlock =>
    exact hc.keep ⟨rfl, rfl, rfl⟩ rfl rfl rfl
      (fun _ => hc.named i (inUse_of_valid (h.holder_valid hp hlock))) (hc.data i) nofun
  | release hp hlock ht => exact hc.keep changes_set rfl rfl rfl (hc.named _) (hc.data _) And.intro
  | @put p i hp =>
    exact hc.keep ⟨rfl, (update_eq_self i s.touched).symm, rfl⟩ rfl rfl rfl
      (fun _ => hc.named i (inUse_of_valid (h.ok hp rfl))) (hc.data i) And.intro

/-! ## What callers see -/

theorem step_pinned {a : Act N} (h : Inv s l) (hs : step s a = some s')
    (hdirty : (s.buf i).dirty = true) : key (s'.buf i) = key (s.buf i) := by
  have hset : ∀ {x : Buf N} {j : Fin NBUF}, key x = key (s.buf j) →
      key (update s.buf j x i) = key (s.buf i) := by
    intro x j hx
    by_cases e : i = j
    · subst e
      rw [update_self, hx]
    · rw [update_of_ne e]
  cases step_effect h hs with
  | hit | acquire | read | store | bwrite | log_write | release | put => exact hset rfl
  | @recycle p k j hp hmiss hi =>
    have hij : i ≠ j := by
      rintro rfl
      rw [hi.2] at hdirty
      cases hdirty
    rw [changes_set.buf, update_of_ne hij]

/-- A `bread` of block `k` that returns gives its caller the locked buffer of the block, with the
latest data. -/
theorem step_returns {a : Act N} (hc : Coherent name s) (h : Inv s l) (hs : step s a = some s')
    (hr : returns s a = some (p, i, k)) : (s'.buf i).lock = some p ∧ key (s'.buf i) = k ∧
      (s'.buf i).valid = true ∧ (s'.buf i).data = s.latest k := by
  cases step_effect h hs with
  | @acquire q j k' hp hlock =>
    simp only [returns, hp, Option.ite_none_right_eq_some] at hr
    obtain ⟨hv, hr⟩ := hr
    cases hr
    have hok : key (s.buf i) = k := h.ok hp rfl
    rw [changes_set.buf, update_self]
    refine ⟨rfl, hok, hv, ?_⟩
    rw [← hok]
    exact hc.data i hv
  | @read q j k' hp =>
    simp only [returns, hp] at hr
    cases hr
    obtain ⟨hk, hlock, -⟩ := h.ok hp rfl
    rw [changes_set.buf, update_self]
    exact ⟨hlock, hk, rfl, hc.disk_of_read h hp⟩
  | hit | recycle | store | bwrite | log_write | release | put => cases hr

/-- The list is a ring of all buffers, no two buffers in use are for one block, and a dirty buffer
keeps its block. -/
structure Consistent (s : State N) : Prop where
  once : s.forward.Nodup
  all : ∀ i, i ∈ s.forward
  closed : s.links.next^[NBUF + 1] none = none
  inverse : ∀ n, s.links.prev (s.links.next n) = n
  unique : ∀ i j, InUse (s.buf i) → InUse (s.buf j) → key (s.buf i) = key (s.buf j) → i = j
  pinned : ∀ a s', step s a = some s' → ∀ i, (s.buf i).dirty = true →
    key (s'.buf i) = key (s.buf i)

theorem Inv.consistent (h : Inv s l) : Consistent s where
  once := h.forward_eq ▸ h.nodup
  all := fun i => h.forward_eq ▸ h.all i
  closed := by
    have hperm := (List.perm_ext_iff_of_nodup h.nodup (List.nodup_finRange NBUF)).mpr
      fun i => iff_of_true (h.all i) (List.mem_finRange i)
    have hlen : l.length = NBUF := by rw [hperm.length_eq, List.length_finRange]
    have := h.ring.seg.iterate_next
    rwa [List.length_map, hlen] at this
  inverse := by
    intro n
    refine h.ring.seg.prev_next ?_
    cases n with
    | none => exact List.mem_cons_self
    | some i => exact List.mem_cons_of_mem _ (List.mem_map_of_mem (h.all i))
  unique := h.unique
  pinned := fun a s' hs i hi => step_pinned h hs hi

/-- In every state reached by any number of processes the cache is consistent; and where each drive
is used under one device number, every `bread` that returns there gives the data of the last store
into its block, or what the disk held at first. -/
theorem cache_transparent (disk : Key → Block) (acts : List (Act N)) (s : State N)
    (hrun : run step (binit disk) acts = some s) :
    Consistent s ∧ ∀ name : ℕ → ℕ, (∀ a ∈ acts, a.Named name) →
      ∀ a s' p i k, step s a = some s' → returns s a = some (p, i, k) →
        (s'.buf i).lock = some p ∧ key (s'.buf i) = k ∧ (s'.buf i).valid = true ∧
          (s'.buf i).data = s.latest k := by
  have hinv : ∃ l, Inv s l :=
    run_invariant' (I := fun s => ∃ l, Inv s l) (fun s a s' ⟨l, h⟩ hs => step_inv h hs)
      ⟨_, binit_inv disk⟩ hrun
  obtain ⟨l, h⟩ := hinv
  refine ⟨h.consistent, fun name hnamed a s' p i k hs hr => ?_⟩
  have hcoh : (∃ l, Inv s l) ∧ Coherent name s :=
    run_invariant (I := fun s => (∃ l, Inv s l) ∧ Coherent name s)
      (fun s a s' ⟨⟨l, h⟩, hc⟩ ha hs => ⟨step_inv h hs, step_coherent hc h ha hs⟩)
      ⟨⟨_, binit_inv disk⟩, binit_coherent disk⟩ (meets_of_forall hnamed _) hrun
  exact step_returns hcoh.2 h hs hr

def filled (b : BitVec 8) : Block := fun _ => b

def buf₀ : Fin NBUF := ⟨0, nbuf_pos⟩
def buf₁ : Fin NBUF := ⟨1, one_lt_nbuf⟩

local instance oneProcess : NeZero 1 := ⟨Nat.one_ne_zero⟩

/-- A process reads block 5 of device 1, changes it, logs it, releases it and asks for it again. -/
def readBack : List (Act 1) :=
  [.bget 0 (1, 5), .acquire 0, .iderw 0, .store 0 buf₀ (filled 1), .log_write 0 buf₀,
    .release 0 buf₀, .put 0, .bget 0 (1, 5)]

/-- The second `bread` returns what was stored. -/
theorem cache_transparent_readBack : ∃ s s' : State 1,
    run step (binit fun _ => filled 0) readBack = some s ∧ step s (.acquire 0) = some s' ∧
      Consistent s ∧ (s'.buf buf₀).data = s.latest (1, 5) := by
  have heval : ((run step (binit fun _ => filled 0) readBack).bind fun s =>
      (step s (.acquire 0)).map fun _ => returns s (.acquire 0)) = some (some (0, buf₀, (1, 5))) := by
    decide +kernel
  obtain ⟨s, hrun, hs⟩ := Option.bind_eq_some_iff.mp heval
  obtain ⟨s', hs', hr⟩ := Option.map_eq_some_iff.mp hs
  obtain ⟨hcons, hdata⟩ := cache_transparent _ _ s hrun
  exact ⟨s, s', hrun, hs', hcons, (hdata id (by decide) _ s' _ _ _ hs' hr).2.2.2⟩

/-- A process writes 1s to block 5 of device 1 with `bwrite`, then 2s with `log_write`, and reads
block 5 of device 3. -/
def twoNames : List (Act 1) :=
  [.bget 0 (1, 5), .acquire 0, .iderw 0, .store 0 buf₀ (filled 1), .bwrite 0 buf₀,
    .store 0 buf₀ (filled 2), .log_write 0 buf₀, .release 0 buf₀, .put 0,
    .bget 0 (3, 5), .acquire 0]

/-- The driver finds devices 1 and 3 on one drive: the `bread` of block 5 of device 3 returns 1s,
neither what the disk held at first nor what was last stored into the block. -/
theorem two_names_stale : ∃ s s' : State 1,
    run step (binit fun _ => filled 0) twoNames = some s ∧ step s (.iderw 0) = some s' ∧
      returns s (.iderw 0) = some (0, buf₁, (3, 5)) ∧ (s'.buf buf₁).data 0 = 1 ∧
      s.latest (3, 5) 0 = 0 ∧ s.latest (1, 5) 0 = 2 := by
  have heval : ((run step (binit fun _ => filled 0) twoNames).bind fun s =>
      (step s (.iderw 0)).map fun s' =>
        (returns s (.iderw 0), (s'.buf buf₁).data 0, s.latest (3, 5) 0, s.latest (1, 5) 0)) =
      some (some (0, buf₁, (3, 5)), 1, 0, 2) := by
    decide +kernel
  obtain ⟨s, hrun, hs⟩ := Option.bind_eq_some_iff.mp heval
  obtain ⟨s', hs', hr⟩ := Option.map_eq_some_iff.mp hs
  simp only [Prod.mk.injEq] at hr
  exact ⟨s, s', hrun, hs', hr⟩

end DuckoUnix.Bcache
