import DuckoUnix.Umalloc.Heap

/-!
# Runs of malloc and free

The search of `malloc` from `freep` meets every node of the ring before it is back at `freep`
(`search_walk`). It takes the first block that is large enough; when there is none it calls
`morecore` and goes around once more, and then there is one. More fuel never changes a result, so
the calls of a run keep `Inv` however much they are given.
-/

namespace DuckoUnix.Umalloc

open Lib

variable {base bp fuel j k n p q x y : ℕ} {ptr : ℕ → ℕ} {l L : List ℕ} {h h' : Heap}
  {live : Finset ℕ} {sb : List (Option ℕ)}

/-! ## The loop of malloc -/

/-- From the node `a` on, the search finds a block or arrives at `freep` without one. -/
theorem search_walk {a : ℕ} (sb : List (Option ℕ)) (hp : Leads h.ptr a l x)
    (hx : h.freep = some x) (hl : x ∉ l) (hk : l.length < k) :
    (∃ q ∈ a :: l, n ≤ h.size (h.ptr q) ∧
      search n k sb h a (h.ptr a) = some (carve h n q (h.ptr q))) ∨
    (∀ y ∈ l ++ [x], h.size y < n) ∧
      ∃ j q, k = l.length + (j + 1) ∧ search n k sb h a (h.ptr a) = search n (j + 1) sb h q x := by
  induction l generalizing a k with
  | nil =>
    have ha : h.ptr a = x := hp
    obtain ⟨k, rfl⟩ : ∃ j, k = j + 1 := ⟨k - 1, by simp at hk; omega⟩
    by_cases hn : n ≤ h.size x
    · refine .inl ⟨a, by simp, ha ▸ hn, ?_⟩
      rw [search, if_pos (ha ▸ hn)]
    · refine .inr ⟨by simpa using hn, k, a, by simp, by rw [ha]⟩
  | cons z l ih =>
    obtain ⟨hz, hp⟩ := hp
    obtain ⟨k, rfl⟩ : ∃ j, k = j + 1 := ⟨k - 1, by simp at hk; omega⟩
    by_cases hn : n ≤ h.size z
    · refine .inl ⟨a, by simp, hz ▸ hn, ?_⟩
      rw [search, if_pos (hz ▸ hn)]
    · have hzx : some z ≠ h.freep := by
        rw [hx]
        rintro ⟨⟩
        exact hl (by simp)
      rw [hz, search, if_neg hn, if_neg hzx]
      rcases ih hp (fun hm => hl (by simp [hm])) (by simpa using hk) with
        ⟨q, hq, hqn, heq⟩ | ⟨hall, j, q, hj, heq⟩
      · exact .inl ⟨q, List.mem_cons_of_mem _ hq, hqn, heq⟩
      · refine .inr ⟨?_, j, q, by simp; omega, heq⟩
        rintro y hy
        rcases List.mem_cons.mp hy with rfl | hy
        · omega
        · exact hall y hy

/-- Once around the ring: a block of the list is taken, or all are too small and `freep` is the
next node to look at. -/
theorem search_round (sb : List (Option ℕ)) (hi : Inv base h live L) (hx : h.freep = some x)
    (hn : 0 < n) (hk : L.length ≤ k) :
    (∃ c h' L', search n k sb h x (h.ptr x) = some (some (c + HEADER), h') ∧ c ∉ live ∧
      h'.size c = n ∧ Inv base h' (insert c live) L' ∧ ∀ b ∈ live, h'.size b = h.size b) ∨
    (∀ y ∈ L, h.size y < n) ∧
      ∃ j q, k = L.length + j ∧ search n k sb h x (h.ptr x) = search n (j + 1) sb h q x := by
  obtain ⟨y, hy, hfreep⟩ := hi.freep
  obtain rfl : x = y := Option.some.inj (hx.symm.trans hfreep)
  obtain ⟨l, hpath, hperm⟩ := hi.ring.start hy
  have hd := List.nodup_cons.mp (hperm.nodup_iff.mpr hi.nodup)
  have hlen := hperm.length_eq
  rw [List.length_cons] at hlen
  rcases search_walk (n := n) (k := k) sb hpath hx hd.1 (by omega) with
    ⟨q, hq, hqn, heq⟩ | ⟨hall, j, q, hj, heq⟩
  · obtain ⟨c, h', L', hcarve, hc⟩ := carve_inv hi (hperm.mem_iff.mp hq) hn hqn
    rw [hcarve] at heq
    exact .inl ⟨c, h', L', heq, hc⟩
  · refine .inr ⟨fun z hz => hall z ?_, j, q, by omega, heq⟩
    have := hperm.mem_iff.mpr hz
    simp only [List.mem_append, List.mem_cons] at this ⊢
    tauto

/-- The outcome of `malloc` for `n` units: null, or a block that was not live. -/
def Outcome (base n : ℕ) (h : Heap) (live : Finset ℕ) (r : Option ℕ) (h' : Heap) : Prop :=
  (r = none ∧ ∃ L, Inv base h' live L ∧ ∀ b ∈ live, h'.size b = h.size b) ∨
  ∃ c, r = some (c + HEADER) ∧ c ∉ live ∧ h'.size c = n ∧
    ∃ L, Inv base h' (insert c live) L ∧ ∀ b ∈ live, h'.size b = h.size b

/-- The search ends: two rounds are enough. -/
theorem search_inv (hi : Inv base h live L) (hx : h.freep = some x) (hn : 0 < n)
    (hf : Fresh base h (sb.headD none)) (hk : 3 * L.length + 1 ≤ k) :
    ∃ r h', search n k sb h x (h.ptr x) = some (r, h') ∧ Outcome base n h live r h' := by
  rcases search_round (k := k) sb hi hx hn (by omega) with
    ⟨c, h', L', heq, hc, hsize, hinv, hother⟩ | ⟨hall, j, q, rfl, heq⟩
  · exact ⟨_, h', heq, .inr ⟨c, rfl, hc, hsize, L', hinv, hother⟩⟩
  have hxL : x ∈ L := by
    obtain ⟨y, hy, hfreep⟩ := hi.freep
    rwa [Option.some.inj (hx.symm.trans hfreep)]
  rw [heq, search, if_neg (not_le.mpr (hall x hxL)), if_pos hx.symm]
  cases hsb : sb.headD none with
  | none => exact ⟨none, h, rfl, .inl ⟨rfl, L, hi, fun _ _ => rfl⟩⟩
  | some a =>
    rw [hsb] at hf
    obtain ⟨h₁, L₁, x₁, hmore, hx₁, hi₁, ⟨g, hg, hgs⟩, hlen, hsize₁⟩ :=
      morecore_inv hi hf hn (by omega : L.length ≤ j)
    rw [hmore]
    dsimp only
    rcases search_round (k := j) sb.tail hi₁ hx₁ hn (by omega) with
      ⟨c, h', L', heq, hc, hsize, hinv, hother⟩ | ⟨hall, -⟩
    · exact ⟨_, h', heq, .inr ⟨c, rfl, hc, hsize, L', hinv, fun b hb =>
        (hother b hb).trans (hsize₁ b hb)⟩⟩
    · exact absurd (hall g hg) (not_lt.mpr hgs)

/-! ## Fuel -/

theorem place_mono (hp : place ptr bp k x = some q) (hj : k ≤ j) : place ptr bp j x = some q := by
  induction k generalizing j x with
  | zero => simp [place] at hp
  | succ k ih =>
    obtain ⟨j, rfl⟩ : ∃ i, j = i + 1 := ⟨j - 1, by omega⟩
    rw [place] at hp ⊢
    split_ifs at hp ⊢
    · exact hp
    · exact hp
    · exact ih hp (by omega)

theorem free_mono {ap : ℕ} (hf : free k h ap = some h') (hj : k ≤ j) : free j h ap = some h' := by
  simp only [free, bind, pure, Option.bind_eq_some_iff] at hf ⊢
  obtain ⟨x, hx, q, hq, he⟩ := hf
  exact ⟨x, hx, q, place_mono hq hj, he⟩

theorem morecore_mono {r : Option ℕ} {o : Option ℕ × Heap} (hm : morecore k h n r = some o)
    (hj : k ≤ j) : morecore j h n r = some o := by
  cases r with
  | none => exact hm
  | some a =>
    simp only [morecore, bind, pure, Option.bind_eq_some_iff] at hm ⊢
    obtain ⟨h', hf, he⟩ := hm
    exact ⟨h', free_mono hf hj, he⟩

theorem search_mono {o : Option ℕ × Heap} (hs : search n k sb h q p = some o) (hj : k ≤ j) :
    search n j sb h q p = some o := by
  induction k generalizing j sb h q p with
  | zero => simp [search] at hs
  | succ k ih =>
    obtain ⟨j, rfl⟩ : ∃ i, j = i + 1 := ⟨j - 1, by omega⟩
    have hj : k ≤ j := by omega
    rw [search] at hs ⊢
    split_ifs at hs ⊢
    · exact hs
    · cases hm : morecore k h n (sb.headD none) with
      | none =>
        rw [hm] at hs
        cases hs
      | some o' =>
        rw [morecore_mono hm hj]
        rw [hm] at hs
        obtain ⟨_ | x, h'⟩ := o'
        · exact hs
        · exact ih hs hj
    · exact ih hs hj

/-! ## Calls -/

theorem nunits_pos (n : ℕ) : 0 < nunits n := Nat.succ_pos _

theorem le_nunits (hn : Small n) : n + HEADER ≤ HEADER * nunits n := by
  have h₁ := hn.1
  have hmod : (n + 8 - 1) % 2 ^ 32 = n + 8 - 1 := Nat.mod_eq_of_lt (by unfold HEADER at h₁; omega)
  unfold nunits UINT HEADER
  rw [hmod]
  omega

/-- Nothing allocated yet, or a list. -/
def State.Good (base : ℕ) (s : State) : Prop := s.Init ∨ ∃ L, Inv base s.toHeap s.live L

theorem start_inv {s : State} (hs : s.Good base) : ∃ L x, Inv base (start base s.toHeap) s.live L ∧
    (start base s.toHeap).freep = some x ∧ (start base s.toHeap).regions = s.regions ∧
    ∀ b ∈ s.live, (start base s.toHeap).size b = s.size b := by
  rcases hs with ⟨hf, hr, hl⟩ | ⟨L, hi⟩
  · have hstart : start base s.toHeap = { s.toHeap with
        ptr := Function.update s.ptr base base
        size := Function.update s.size base 0
        freep := some base } := by
      unfold start
      rw [hf]
    rw [hstart, hl]
    refine ⟨[base], base, ⟨rfl, ?_, ⟨base, by simp, rfl⟩, by simp, by simp, by simp, ?_⟩, rfl, rfl,
      by simp⟩
    · simp [Circuit, Leads]
    · refine ⟨by simp, by simp, by simp, by simp, ?_, by simp [hr]⟩
      intro a ha x hx hlt
      have ha : a = base := by simpa using ha
      rw [fin_eq] at hlt
      simp [ha] at hlt hx
      omega
  · obtain ⟨x, -, hx⟩ := hi.freep
    have hstart : start base s.toHeap = s.toHeap := by
      unfold start
      rw [hx]
    rw [hstart]
    exact ⟨L, x, hi, hx, rfl, fun _ _ => rfl⟩

theorem malloc_inv {s : State} (hs : s.Good base) (hf : Fresh base s.toHeap (sb.headD none)) :
    ∃ k, ∀ j, k ≤ j → ∃ r h', malloc base j s.toHeap n sb = some (r, h') ∧
      Outcome base (nunits n) s.toHeap s.live r h' := by
  obtain ⟨L, x, hi, hx, hreg, hsize⟩ := start_inv hs
  refine ⟨3 * L.length + 1, fun j hj => ?_⟩
  have hf' : Fresh base (start base s.toHeap) (sb.headD none) := by
    unfold Fresh
    rw [hreg]
    exact hf
  obtain ⟨r, h', heq, hout⟩ := search_inv hi hx (nunits_pos n) hf' hj
  refine ⟨r, h', by simpa [malloc, hx] using heq, ?_⟩
  rcases hout with ⟨hr, L', hinv, hother⟩ | ⟨c, hr, hc, hsc, L', hinv, hother⟩
  · exact .inl ⟨hr, L', hinv, fun b hb => (hother b hb).trans (hsize b hb)⟩
  · exact .inr ⟨c, hr, hc, hsc, L', hinv, fun b hb => (hother b hb).trans (hsize b hb)⟩

theorem malloc_mono {o : Option ℕ × Heap} (hm : malloc base k h n sb = some o) (hj : k ≤ j) :
    malloc base j h n sb = some o := by
  simp only [malloc, bind, Option.bind_eq_some_iff] at hm ⊢
  obtain ⟨x, hx, hs⟩ := hm
  exact ⟨x, hx, search_mono hs hj⟩

/-- Whatever fuel `malloc` returns with, its outcome is right. -/
theorem malloc_outcome {s : State} {r : Option ℕ} (hs : s.Good base)
    (hf : Fresh base s.toHeap (sb.headD none)) (hm : malloc base fuel s.toHeap n sb = some (r, h')) :
    Outcome base (nunits n) s.toHeap s.live r h' := by
  obtain ⟨k, hk⟩ := malloc_inv (n := n) hs hf
  obtain ⟨r', h'', heq, hout⟩ := hk (max k fuel) (le_max_left _ _)
  have := (malloc_mono hm (le_max_right k fuel)).symm.trans heq
  cases this
  exact hout

/-- A call in a good state ends in a good state, and keeps the sizes of the blocks that stay
live. -/
theorem step_total {s : State} {c : Call} (hs : s.Good base) (hc : Allowed base s c) :
    ∃ k, ∀ j, k ≤ j → ∃ s', step base s (j, c) = some s' := by
  cases c with
  | malloc n sb =>
    obtain ⟨k, hk⟩ := malloc_inv (n := n) hs hc.2
    refine ⟨k, fun j hj => ?_⟩
    obtain ⟨r, h', heq, -⟩ := hk j hj
    exact ⟨_, by rw [step, heq]; rfl⟩
  | free ap =>
    obtain ⟨b, hb, rfl⟩ := hc
    rcases hs with ⟨-, -, hl⟩ | ⟨L, hi⟩
    · simp [hl] at hb
    · refine ⟨L.length, fun j hj => ?_⟩
      obtain ⟨h', L', hfree, -⟩ := free_inv hi hb hj
      exact ⟨_, by rw [step, hfree]; rfl⟩

theorem step_good {s s' : State} {c : Call} (hs : s.Good base) (hc : Allowed base s c)
    (hstep : step base s (fuel, c) = some s') :
    s'.Good base ∧ ∀ b ∈ s.live, b ∈ s'.live → s'.size b = s.size b := by
  cases c with
  | malloc n sb =>
    simp only [step, Option.map_eq_some_iff, Prod.exists] at hstep
    obtain ⟨r, h', hm, rfl⟩ := hstep
    rcases malloc_outcome hs hc.2 hm with ⟨rfl, L, hinv, hsize⟩ | ⟨c, rfl, -, -, L, hinv, hsize⟩
    · exact ⟨.inr ⟨L, hinv⟩, fun b hb _ => hsize b hb⟩
    · exact ⟨.inr ⟨L, by simpa using hinv⟩, fun b hb _ => hsize b hb⟩
  | free ap =>
    obtain ⟨b, hb, rfl⟩ := hc
    simp only [step, Option.map_eq_some_iff] at hstep
    obtain ⟨h', hf, rfl⟩ := hstep
    rcases hs with ⟨-, -, hl⟩ | ⟨L, hi⟩
    · simp [hl] at hb
    · obtain ⟨h'', L', hfree, hinv, -, -, -, hsize⟩ :=
        free_inv hi hb (le_max_left L.length fuel)
      obtain rfl := Option.some.inj ((free_mono hf (le_max_right _ _)).symm.trans hfree)
      refine ⟨.inr ⟨L', by simpa using hinv⟩, fun a ha hm => hsize a ha ?_⟩
      simpa using Finset.ne_of_mem_erase hm

/-! ## Runs -/

/-- The heap as it should be between two calls. Before the first `malloc` there is nothing. After
it the list from `freep` is one cycle `L` through `base` in increasing order, with one wrap; the
blocks, those of `L` and the live ones, lie apart from each other in memory obtained from `sbrk`;
and no block of `L` ends where another one starts. -/
def State.WellFormed (base : ℕ) (s : State) : Prop :=
  (s.freep = none ∧ s.live = ∅) ∨
  ∃ f L, s.freep = some f ∧ f ∈ L ∧ L.head? = some base ∧ Circuit s.ptr L ∧ L.Pairwise (· < ·) ∧
    (∃! x, x ∈ L ∧ s.ptr x ≤ x) ∧ s.size base = 0 ∧
    (∀ a, a ∈ L ∨ a ∈ s.live → (a ≠ base → 0 < s.size a) ∧ s.Inside a ∧
      ∀ b, b ∈ L ∨ b ∈ s.live → a ≠ b → s.Apart a b) ∧
    (∀ a ∈ s.live, a ∉ L) ∧ ∀ a ∈ L, ∀ b ∈ L, b ≠ base → s.fin a ≠ b

/-- Only the last node points down, or to itself. -/
theorem Inv.one_wrap (hi : Inv base h live L) : ∃! x, x ∈ L ∧ h.ptr x ≤ x := by
  obtain ⟨fs, rfl⟩ := hi.eq_cons
  -- a node that is not the last points up
  have hup : ∀ {u v : List ℕ} {y z : ℕ}, base :: fs = u ++ y :: z :: v → y < z := by
    intro u v y z huv
    have hs := hi.sorted
    rw [huv, List.pairwise_append, List.pairwise_cons] at hs
    exact hs.2.1.1 z (by simp)
  obtain hnil | ⟨u, x, hx⟩ := List.eq_nil_or_concat (base :: fs)
  · cases hnil
  rw [List.concat_eq_append] at hx
  have hmem : x ∈ base :: fs := by simp [hx]
  refine ⟨x, ⟨hmem, ?_⟩, fun y ⟨hy, hle⟩ => ?_⟩
  · obtain ⟨u', z, v, huv, hz⟩ | ⟨-, -, hz⟩ := hi.ring.next_cases hmem
    · have hs := hi.sorted
      have hzL : z ∈ base :: fs := by simp [huv]
      rw [hx] at hs hzL
      have := le_or_above (m := z) hs (by simp) hzL
      omega
    · rw [hz]
      exact hi.blocks.base_le x (.inl hmem)
  · obtain ⟨u', z, v, huv, hz⟩ | ⟨u', hu, -⟩ := hi.ring.next_cases hy
    · have := hup huv
      omega
    · rw [hx] at hu
      simpa using (List.append_inj' hu rfl).2.symm

theorem State.Good.wellFormed {s : State} (hs : s.Good base) : s.WellFormed base := by
  rcases hs with ⟨hf, -, hl⟩ | ⟨L, hi⟩
  · exact .inl ⟨hf, hl⟩
  · obtain ⟨f, hfL, hf⟩ := hi.freep
    exact .inr ⟨f, L, hf, hfL, hi.head, hi.ring, hi.sorted, hi.one_wrap, hi.blocks.size_base,
      fun a ha => ⟨hi.blocks.pos a ha, hi.blocks.inside a ha, fun b hb => hi.blocks.apart a ha b hb⟩,
      hi.fresh, hi.merged⟩

/-- In every state between two calls of a process that frees only live pointers the heap is well
formed. The next call ends, with all its loops; it keeps the sizes of the blocks that stay live;
and a pointer it returns is to a block that was not live before, is live now and has room for what
was asked for. -/
theorem heap_wellFormed {s₀ s : State} {cs : List (ℕ × Call)} (h0 : s₀.Init)
    (hall : Meets (step base) (fun s c => Allowed base s c.2) s₀ cs)
    (hrun : run (step base) s₀ cs = some s) :
    s.WellFormed base ∧
      (∀ c, Allowed base s c → ∃ k, ∀ fuel, k ≤ fuel → ∃ s', step base s (fuel, c) = some s') ∧
      (∀ c fuel s', Allowed base s c → step base s (fuel, c) = some s' →
        ∀ b ∈ s.live, b ∈ s'.live → s'.size b = s.size b) ∧
      ∀ n sb fuel p s', Allowed base s (.malloc n sb) →
        malloc base fuel s.toHeap n sb = some (some p, s'.toHeap) →
        step base s (fuel, .malloc n sb) = some s' →
        ∃ b, p = b + HEADER ∧ b ∉ s.live ∧ b ∈ s'.live ∧ p + n ≤ s'.fin b := by
  have hgood : s.Good base := run_invariant (I := State.Good base)
    (fun _ c _ hs hc hstep => (step_good hs hc hstep).1) (.inl h0) hall hrun
  refine ⟨hgood.wellFormed, fun c hc => step_total hgood hc,
    fun c fuel s' hc hstep => (step_good hgood hc hstep).2, fun n sb fuel p s' hc hm hstep => ?_⟩
  rcases malloc_outcome hgood hc.2 hm with ⟨hp, -⟩ | ⟨b, hp, hb, hsize, -⟩
  · cases hp
  · obtain rfl := Option.some.inj hp
    have hle := le_nunits hc.1
    refine ⟨b, rfl, hb, ?_, ?_⟩
    · simp only [step, hm, Option.map_some] at hstep
      rw [← Option.some.inj hstep]
      simp
    · rw [Heap.fin, hsize]
      omega

/-- Three blocks from the end of one region; the second goes back, and its space to a fourth. -/
theorem heap_wellFormed_reuse :
    ∃ s : State, s.WellFormed 16 ∧ s.live = {36840, 36792, 36816} ∧
      ∀ c, Allowed 16 s c → ∃ k, ∀ fuel, k ≤ fuel → ∃ s', step 16 s (fuel, c) = some s' := by
  have hrun : (run (step 16) ⟨⟨fun _ => 0, fun _ => 0, none, []⟩, ∅⟩
      [(9, .malloc 10 [some 4096]), (9, .malloc 20 []), (9, .malloc 8 []), (9, .free 36816),
        (9, .malloc 12 [])]).map (·.live) = some {36840, 36792, 36816} := by
    decide +kernel
  obtain ⟨s, hs, hlive⟩ := Option.map_eq_some_iff.mp hrun
  have h := heap_wellFormed ⟨rfl, rfl, rfl⟩ (by decide +kernel) hs
  exact ⟨s, h.1, hlive, h.2.1⟩

end DuckoUnix.Umalloc
