import Mathlib.Data.List.Pairwise
import DuckoUnix.Umalloc.Model

/-!
# The heap stays well formed

The nodes of the free list, from `base` on, are a ring in increasing address order in which every
block ends before the next one starts (`Inv`). `place` then stops at the node below the block that
is freed and nowhere else (`stops_iff`), so `free` keeps the order and, by its two tests, leaves no
neighbours apart. The search of `malloc` goes once around the ring, and once more after `morecore`,
when a block of the right size is in it.
-/

namespace DuckoUnix.Umalloc

open Lib Function

variable {base bp fuel k m n p q u v x y : ℕ} {ptr : ℕ → ℕ} {fs l r L : List ℕ} {h h' : Heap}
  {live : Finset ℕ}

theorem fin_eq (h : Heap) (p : ℕ) : h.fin p = p + 8 * h.size p := rfl

/-- The byte `x` is in memory obtained from `sbrk`. -/
def Heap.Obtained (h : Heap) (x : ℕ) : Prop := ∃ g ∈ h.regions, g.1 ≤ x ∧ x < g.1 + g.2

/-- The blocks at `a` and `b` have no byte in common. -/
def Heap.Apart (h : Heap) (a b : ℕ) : Prop := h.fin a ≤ b ∨ h.fin b ≤ a

/-- The block at `a` lies in memory obtained from `sbrk`. -/
def Heap.Inside (h : Heap) (a : ℕ) : Prop := ∀ x, a ≤ x → x < h.fin a → h.Obtained x

/-- The blocks that start at the addresses `B`, free or live, and the empty one at `base`. -/
structure Blocks (base : ℕ) (h : Heap) (B : Set ℕ) : Prop where
  size_base : h.size base = 0
  base_le : ∀ a ∈ B, base ≤ a
  pos : ∀ a ∈ B, a ≠ base → 0 < h.size a
  apart : ∀ a ∈ B, ∀ b ∈ B, a ≠ b → h.Apart a b
  inside : ∀ a ∈ B, h.Inside a
  above : ∀ g ∈ h.regions, base + HEADER ≤ g.1

/-- What holds between two calls once the list exists: `L` are its nodes in address order. -/
structure Inv (base : ℕ) (h : Heap) (live : Finset ℕ) (L : List ℕ) : Prop where
  head : L.head? = some base
  ring : Circuit h.ptr L
  freep : ∃ x ∈ L, h.freep = some x
  sorted : L.Pairwise (· < ·)
  fresh : ∀ a ∈ live, a ∉ L
  merged : ∀ a ∈ L, ∀ b ∈ L, b ≠ base → h.fin a ≠ b
  blocks : Blocks base h {a | a ∈ L ∨ a ∈ live}

theorem Inv.nodup (hi : Inv base h live L) : L.Nodup :=
  hi.sorted.imp fun hab => hab.ne

theorem Inv.eq_cons (hi : Inv base h live L) : ∃ fs, L = base :: fs := by
  have := hi.head
  cases L with
  | nil => simp at this
  | cons a fs => simp_all

theorem Inv.base_lt (hi : Inv base h live L) (hb : bp ∈ live) : base < bp := by
  refine lt_of_le_of_ne (hi.blocks.base_le bp (.inr hb)) fun e => hi.fresh bp hb ?_
  obtain ⟨fs, rfl⟩ := hi.eq_cons
  simp [e]

/-! ## The loop of free -/

/-- The loop of `free` stops at `p`. -/
def Stops (ptr : ℕ → ℕ) (bp p : ℕ) : Prop :=
  (p < bp ∧ bp < ptr p) ∨ (ptr p ≤ p ∧ (p < bp ∨ bp < ptr p))

theorem place_of_stops (h : Stops ptr bp p) : place ptr bp (k + 1) p = some p := by
  rw [place]
  split_ifs with h₁ h₂
  · rfl
  · rfl
  · exact absurd h (by simp [Stops, h₁, h₂])

theorem place_of_not_stops (h : ¬Stops ptr bp p) :
    place ptr bp (k + 1) p = place ptr bp k (ptr p) := by
  rw [place, if_neg fun h₁ => h (.inl h₁), if_neg fun h₂ => h (.inr h₂)]

theorem place_walk (hp : Leads ptr x l q) (hs : ∀ y ∈ x :: l, ¬Stops ptr bp y) :
    place ptr bp (l.length + 1 + k) x = place ptr bp k q := by
  induction l generalizing x with
  | nil =>
    rw [List.length_nil, Nat.zero_add, Nat.add_comm, place_of_not_stops (hs x (by simp))]
    exact congrArg _ hp
  | cons z l ih =>
    rw [List.length_cons, Nat.add_right_comm, place_of_not_stops (hs x (by simp)), hp.1]
    exact ih hp.2 fun y hy => hs y (List.mem_cons_of_mem _ hy)

theorem exists_below (hs : L.Pairwise (· < ·)) {a b : ℕ} (ha : a ∈ L) (hab : a < b) (hb : b ∉ L) :
    ∃ l q r, L = l ++ q :: r ∧ q < b ∧ ∀ y ∈ r, b < y := by
  induction L generalizing a with
  | nil => simp at ha
  | cons x L ih =>
    rw [List.pairwise_cons] at hs
    by_cases hex : ∃ y ∈ L, y < b
    · obtain ⟨y, hy, hyb⟩ := hex
      obtain ⟨l, q, r, rfl, hq, hr⟩ := ih hs.2 hy hyb fun hm => hb (List.mem_cons_of_mem _ hm)
      exact ⟨x :: l, q, r, rfl, hq, hr⟩
    · push Not at hex
      refine ⟨[], x, L, rfl, ?_, fun y hy => ?_⟩
      · rcases List.mem_cons.mp ha with rfl | ha
        · exact hab
        · have := hex a ha
          omega
      · refine lt_of_le_of_ne (hex y hy) fun e => hb ?_
        rw [e]
        exact List.mem_cons_of_mem _ hy

/-- In a sorted list everything is at most `q`, or above what lies between `q` and the rest. -/
theorem le_or_above (hs : (l ++ q :: r).Pairwise (· < ·)) (hr : ∀ y ∈ r, m < y)
    (hx : x ∈ l ++ q :: r) : x ≤ q ∨ m < x := by
  rw [List.pairwise_append, List.pairwise_cons] at hs
  rcases List.mem_append.mp hx with hx | hx
  · exact .inl (hs.2.2 x hx q (by simp)).le
  · rcases List.mem_cons.mp hx with rfl | hx
    · exact .inl le_rfl
    · exact .inr (hr x hx)

/-- The loop stops exactly at the node below the block. -/
theorem stops_iff (hring : Circuit ptr (base :: fs)) (hs : (base :: fs).Pairwise (· < ·))
    (heq : base :: fs = l ++ q :: r) (hq : q < bp) (hr : ∀ y ∈ r, bp < y)
    (hy : y ∈ base :: fs) : Stops ptr bp y ↔ y = q := by
  have hmem : q ∈ base :: fs := by simp [heq]
  have hsplit : ∀ x ∈ base :: fs, x ≤ q ∨ bp < x := by
    rw [heq] at hs ⊢
    exact fun x hx => le_or_above hs hr hx
  have hbase : base ≤ q := by
    rcases List.mem_cons.mp hmem with rfl | hm
    · exact le_rfl
    · exact ((List.pairwise_cons.mp hs).1 q hm).le
  have hyq := hsplit y hy
  obtain ⟨u, z, v, huv, hz⟩ | ⟨u, hu, hz⟩ := hring.next_cases hy
  · have hs' := hs
    rw [huv] at hs'
    have hyz : y < z := (List.pairwise_cons.mp (List.pairwise_append.mp hs').2.1).1 z (by simp)
    have hzq := hsplit z (by simp [huv])
    have hqy : q ≤ y ∨ z ≤ q := by
      rw [huv] at hmem
      have := le_or_above (m := z - 1) hs' (fun w hw => ?_) hmem
      · omega
      · have hyv := (List.pairwise_append.mp hs').2.1
        rcases List.mem_cons.mp hw with rfl | hw
        · omega
        · have := (List.pairwise_cons.mp (List.pairwise_cons.mp hyv).2).1 w hw
          omega
    rw [Stops, hz]
    omega
  · have hs' := hs
    rw [hu] at hs' hmem
    have hqy := le_or_above (m := y) hs' (by simp) hmem
    have hyb := (List.pairwise_append.mp hs').2.2
    have hle : q ≤ y := by
      rcases List.mem_append.mp hmem with hm | hm
      · exact (hyb q hm y (by simp)).le
      · simp_all
    rw [Stops, hz]
    omega

/-- The loop of `free` ends, at the node below the block, from wherever it starts. -/
theorem place_eq (hring : Circuit ptr (base :: fs)) (hs : (base :: fs).Pairwise (· < ·))
    (heq : base :: fs = l ++ q :: r) (hq : q < bp) (hr : ∀ y ∈ r, bp < y)
    (hx : x ∈ base :: fs) (hk : (base :: fs).length ≤ k) : place ptr bp k x = some q := by
  have hstop := fun y (hy : y ∈ base :: fs) => stops_iff hring hs heq hq hr hy
  have hmem : q ∈ base :: fs := by simp [heq]
  have hnodup : (base :: fs).Nodup := hs.imp fun hab => hab.ne
  obtain ⟨v, hpath, hperm⟩ := hring.start hx
  have hlen := hperm.length_eq
  by_cases hxq : x = q
  · obtain ⟨k, rfl⟩ : ∃ j, k = j + 1 := ⟨k - 1, by simp at hk; omega⟩
    rw [← hxq]
    exact place_of_stops ((hstop x hx).mpr hxq)
  · have hqv : q ∈ v := by
      have := hperm.mem_iff.mpr hmem
      simp_all [eq_comm]
    obtain ⟨u, w, rfl⟩ := List.append_of_mem hqv
    have hpath := (path_append.mp hpath).1
    obtain ⟨k, rfl⟩ : ∃ j, k = u.length + 1 + (j + 1) :=
      ⟨k - u.length - 2, by simp at hlen hk; omega⟩
    rw [place_walk hpath, place_of_stops ((hstop q hmem).mpr rfl)]
    intro y hy hst
    have hyL : y ∈ base :: fs := hperm.mem_iff.mp (by
      rcases List.mem_cons.mp hy with rfl | hy <;> simp_all)
    obtain rfl := (hstop y hyL).mp hst
    have hd := hperm.nodup_iff.mpr hnodup
    rw [← List.cons_append, List.nodup_append] at hd
    exact hd.2.2 y hy y (by simp) rfl

/-! ## Joining neighbours -/

theorem fin_congr (hs : h'.size x = h.size x) : h'.fin x = h.fin x := by
  rw [fin_eq, fin_eq, hs]

theorem Blocks.join {B : Set ℕ} (hB : Blocks base h B) (hu : u ∈ B) (hv : v ∈ B) (hub : u ≠ base)
    (huv : h.fin u = v) (hsize : h'.size u = h.size u + h.size v)
    (hother : ∀ a, a ≠ u → h'.size a = h.size a) (hreg : h'.regions = h.regions) :
    Blocks base h' (B \ {v}) := by
  have hpos := hB.pos u hu hub
  have hle := hB.base_le u hu
  have hfin : ∀ a, a ≠ u → h'.fin a = h.fin a := fun a ha => fin_congr (hother a ha)
  have hfinu : h'.fin u = h.fin v := by
    rw [fin_eq] at huv
    rw [fin_eq, fin_eq, hsize]
    omega
  have hobt : ∀ x, h.Obtained x → h'.Obtained x := fun x hx => by
    simpa [Heap.Obtained, hreg] using hx
  -- what is apart from both parts is apart from the whole
  have hone : ∀ b ∈ B, b ≠ v → b ≠ u → h'.Apart u b := by
    intro b hb hbv hbu
    have h₁ := hB.apart u hu b hb (Ne.symm hbu)
    have h₂ := hB.apart v hv b hb (Ne.symm hbv)
    unfold Heap.Apart at h₁ h₂ ⊢
    rw [hfinu, hfin b hbu]
    by_cases hbb : b = base
    · have := hB.size_base
      simp only [hbb, fin_eq] at *
      omega
    · have := hB.pos b hb hbb
      simp only [fin_eq] at *
      omega
  refine ⟨?_, fun a ha => hB.base_le a ha.1, ?_, ?_, ?_, hreg ▸ hB.above⟩
  · rw [hother base (Ne.symm hub)]
    exact hB.size_base
  · intro a ha hab
    by_cases e : a = u
    · rw [e, hsize]
      omega
    · rw [hother a e]
      exact hB.pos a ha.1 hab
  · rintro a ⟨ha, hav⟩ b ⟨hb, hbv⟩ hab
    by_cases e : a = u
    · rw [e] at hab ⊢
      exact hone b hb hbv (Ne.symm hab)
    · by_cases e' : b = u
      · rw [e']
        exact (hone a ha hav e).symm
      · have := hB.apart a ha b hb hab
        unfold Heap.Apart at this ⊢
        rwa [hfin a e, hfin b e']
  · rintro a ⟨ha, -⟩ x hax hx
    by_cases e : a = u
    · rw [e, hfinu] at hx
      rw [e] at hax
      refine hobt x ?_
      rcases lt_or_ge x v with hxv | hxv
      · exact hB.inside u hu x hax (huv ▸ hxv)
      · exact hB.inside v hv x hxv hx
    · exact hobt x (hB.inside a ha x hax (hfin a e ▸ hx))

theorem Blocks.mono {B B' : Set ℕ} (hB : Blocks base h B) (hsub : B' ⊆ B)
    (hsize : ∀ a, h'.size a = h.size a) (hreg : h'.regions = h.regions) : Blocks base h' B' := by
  have hfin : ∀ a, h'.fin a = h.fin a := fun a => fin_congr (hsize a)
  refine ⟨?_, fun a ha => hB.base_le a (hsub ha), fun a ha hab => ?_, fun a ha b hb hab => ?_,
    fun a ha x hax hx => ?_, hreg ▸ hB.above⟩
  · rw [hsize, hB.size_base]
  · rw [hsize]
    exact hB.pos a (hsub ha) hab
  · unfold Heap.Apart
    rw [hfin, hfin]
    exact hB.apart a (hsub ha) b (hsub hb) hab
  · simpa [Heap.Obtained, hreg] using hB.inside a (hsub ha) x hax (hfin a ▸ hx)

theorem Inv.absorb (hi : Inv base h live (l ++ q :: v :: r)) (hb : bp ∈ live) (hv : h.fin bp = v)
    (hring : Circuit h'.ptr (l ++ q :: r)) (hf : h'.freep = some q)
    (hsize : h'.size bp = h.size bp + h.size v) (hother : ∀ a, a ≠ bp → h'.size a = h.size a)
    (hreg : h'.regions = h.regions) :
    Inv base h' live (l ++ q :: r) ∧ ∀ y ∈ l ++ q :: r, h'.fin bp ≠ y := by
  have hsub : ∀ a ∈ l ++ q :: r, a ∈ l ++ q :: v :: r := by simp; tauto
  have hbase := hi.base_lt hb
  have hpos := hi.blocks.pos bp (.inr hb) hbase.ne'
  have hvb : v ≠ base := by
    rw [fin_eq] at hv
    omega
  have hne : ∀ a ∈ l ++ q :: r, a ≠ bp := fun a ha e => hi.fresh bp hb (hsub bp (e ▸ ha))
  have hnodup := hi.nodup
  have hvout : v ∉ l ++ q :: r := by
    intro hm
    have hd : ((l ++ [q]) ++ v :: r).Nodup := by simpa using hnodup
    exact (List.nodup_cons.mp (List.nodup_middle.mp hd)).1 (by simpa using hm)
  have hjoin := hi.blocks.join (.inr hb) (.inl (by simp)) hbase.ne' hv hsize hother hreg
  refine ⟨⟨?_, hring, ⟨q, by simp, hf⟩, hi.sorted.sublist (by simp), ?_, ?_, ?_⟩, ?_⟩
  · have := hi.head
    cases l <;> simpa using this
  · exact fun a ha hm => hi.fresh a ha (hsub a hm)
  · intro a ha b hb' hbb
    rw [fin_congr (hother a (hne a ha))]
    exact hi.merged a (hsub a ha) b (hsub b hb') hbb
  · refine hjoin.mono ?_ (fun _ => rfl) rfl
    rintro a (ha | ha)
    · exact ⟨.inl (hsub a ha), fun e => hvout (e ▸ ha)⟩
    · exact ⟨.inr ha, fun e => hi.fresh a ha (by rw [Set.mem_singleton_iff.mp e]; simp)⟩
  · intro y hy e
    have hfin : h'.fin bp = h.fin v := by
      rw [fin_eq] at hv
      rw [fin_eq, fin_eq, hsize]
      omega
    have hy' := hi.blocks.base_le y (.inl (hsub y hy))
    refine hi.merged v (by simp) y (hsub y hy) ?_ (hfin ▸ e)
    rw [fin_eq] at hv e
    omega

theorem Inv.extend (hi : Inv base h live (l ++ q :: r)) (hb : bp ∈ live) (hq : h.fin q = bp)
    (hr : ∀ y ∈ l ++ q :: r, h.fin bp ≠ y) (hring : Circuit h'.ptr (l ++ q :: r))
    (hf : h'.freep = some q) (hsize : h'.size q = h.size q + h.size bp)
    (hother : ∀ a, a ≠ q → h'.size a = h.size a) (hreg : h'.regions = h.regions) :
    Inv base h' (live.erase bp) (l ++ q :: r) := by
  have hbase := hi.base_lt hb
  have hqb : q ≠ base := by
    rintro rfl
    rw [fin_eq, hi.blocks.size_base] at hq
    omega
  have hjoin := hi.blocks.join (.inl (by simp)) (.inr hb) hqb hq hsize hother hreg
  refine ⟨hi.head, hring, ⟨q, by simp, hf⟩, hi.sorted, ?_, ?_, ?_⟩
  · exact fun a ha => hi.fresh a (Finset.mem_of_mem_erase ha)
  · intro a ha b hb' hbb
    by_cases e : a = q
    · have hfin : h'.fin q = h.fin bp := by
        rw [fin_eq] at hq
        rw [fin_eq, fin_eq, hsize]
        omega
      rw [e, hfin]
      exact hr b hb'
    · rw [fin_congr (hother a e)]
      exact hi.merged a ha b hb' hbb
  · refine hjoin.mono ?_ (fun _ => rfl) rfl
    rintro a (ha | ha)
    · exact ⟨.inl ha, fun e => hi.fresh bp hb (Set.mem_singleton_iff.mp e ▸ ha)⟩
    · exact ⟨.inr (Finset.mem_of_mem_erase ha), fun e => Finset.ne_of_mem_erase ha e⟩

theorem Inv.put (hi : Inv base h live (l ++ q :: r)) (hb : bp ∈ live) (hqb : q < bp)
    (hbr : ∀ y ∈ r, bp < y) (hq : h.fin q ≠ bp) (hr : ∀ y ∈ l ++ q :: r, h.fin bp ≠ y)
    (hring : Circuit h'.ptr (l ++ q :: bp :: r)) (hf : h'.freep = some q)
    (hsize : ∀ a, h'.size a = h.size a) (hreg : h'.regions = h.regions) :
    Inv base h' (live.erase bp) (l ++ q :: bp :: r) := by
  have hbase := hi.base_lt hb
  have hpos := hi.blocks.pos bp (.inr hb) hbase.ne'
  have hfin : ∀ a, h'.fin a = h.fin a := fun a => fin_congr (hsize a)
  have hsorted := hi.sorted
  rw [List.pairwise_append, List.pairwise_cons] at hsorted
  obtain ⟨hl, ⟨hqr, hrr⟩, hlq⟩ := hsorted
  -- no block of the list ends where `bp` starts
  have hend : ∀ a ∈ l ++ q :: r, h.fin a ≠ bp := by
    intro a ha e
    rcases List.mem_append.mp ha with hal | har
    · have haq := hlq a hal q (by simp)
      have := hi.blocks.apart a (.inl ha) q (.inl (by simp)) haq.ne
      simp only [Heap.Apart, fin_eq] at this e
      omega
    · rcases List.mem_cons.mp har with rfl | har
      · exact hq e
      · have := hbr a har
        rw [fin_eq] at e
        omega
  refine ⟨?_, hring, ⟨q, by simp, hf⟩, ?_, ?_, ?_, ?_⟩
  · have := hi.head
    cases l <;> simpa using this
  · rw [List.pairwise_append, List.pairwise_cons, List.pairwise_cons]
    refine ⟨hl, ⟨?_, hbr, hrr⟩, ?_⟩
    · simpa [hqb] using hqr
    · intro a ha b hb'
      have haq := hlq a ha q (by simp)
      rcases List.mem_cons.mp hb' with rfl | hb'
      · exact haq
      · rcases List.mem_cons.mp hb' with rfl | hb'
        · omega
        · exact hlq a ha b (by simp [hb'])
  · intro a ha hm
    have hab := Finset.ne_of_mem_erase ha
    have hout := hi.fresh a (Finset.mem_of_mem_erase ha)
    simp_all
  · intro a ha b hb' hbb
    rw [hfin]
    have hcase : ∀ c, c ∈ l ++ q :: bp :: r → c = bp ∨ c ∈ l ++ q :: r := by simp; tauto
    rcases hcase a ha with rfl | haL <;> rcases hcase b hb' with rfl | hbL
    · rw [fin_eq]
      omega
    · exact hr b hbL
    · exact hend a haL
    · exact hi.merged a haL b hbL hbb
  · refine hi.blocks.mono ?_ hsize hreg
    rintro a (ha | ha)
    · have : a = bp ∨ a ∈ l ++ q :: r := by simp at ha ⊢; tauto
      rcases this with rfl | ha
      · exact .inr hb
      · exact .inl ha
    · exact .inr (Finset.mem_of_mem_erase ha)

/-- What `free` has done after its first test, with the pointer that `q` will get. -/
def spliced (h : Heap) (bp q : ℕ) : Heap :=
  { joinUpper h bp q with
    ptr := update (joinUpper h bp q).ptr q ((joinUpper h bp q).ptr bp)
    freep := some q }

theorem joinUpper_inv (hi : Inv base h live (l ++ q :: r)) (hb : bp ∈ live) (hq : q < bp)
    (hr : ∀ y ∈ r, bp < y) :
    ∃ r', Inv base (spliced h bp q) live (l ++ q :: r') ∧
      (∀ y ∈ l ++ q :: r', (spliced h bp q).fin bp ≠ y) ∧ (∀ y ∈ r', y ∈ r) ∧
      r'.length ≤ r.length ∧ h.size bp ≤ (spliced h bp q).size bp ∧
      (∀ a, a ≠ bp → (spliced h bp q).size a = h.size a) ∧
      (spliced h bp q).regions = h.regions := by
  have hout := hi.fresh bp hb
  have hbase := hi.base_lt hb
  have hpos := hi.blocks.pos bp (.inr hb) hbase.ne'
  -- the stores into `bp` do not touch the list
  have hcongr : ∀ {w : List ℕ} (m : ℕ), (∀ a ∈ w, a ∈ l ++ q :: r) →
      Circuit (update h.ptr q m) w →
      Circuit (update (update h.ptr bp m) q m) w := fun m hw hring =>
    hring.congr fun x hx => by
      by_cases e : x = q
      · simp [e]
      · rw [update_of_ne e, update_of_ne e,
          update_of_ne fun e' : x = bp => hout (e' ▸ hw x hx)]
  by_cases hU : h.fin bp = h.ptr q
  · -- the node after `q` starts where `bp` ends
    have hjoin : joinUpper h bp q = { h with
        size := update h.size bp (h.size bp + h.size (h.ptr q))
        ptr := update h.ptr bp (h.ptr (h.ptr q)) } := if_pos hU
    cases r with
    | nil =>
      -- `q` is the last node, and points to one below `bp`
      have hle := le_or_above (m := h.ptr q) hi.sorted (by simp)
        (hi.ring.next_mem (x := q) (by simp))
      rw [fin_eq] at hU
      omega
    | cons z r =>
      have hz := hi.ring.next_mid
      rw [hz] at hU hjoin
      have hne : ∀ a, a ≠ bp → (spliced h bp q).size a = h.size a := fun a ha => by
        simp [spliced, hjoin, ha]
      have hsize : (spliced h bp q).size bp = h.size bp + h.size z := by simp [spliced, hjoin]
      have hreg : (spliced h bp q).regions = h.regions := by simp [spliced, hjoin]
      obtain ⟨hi', hfin⟩ := hi.absorb hb hU (by
        simpa [spliced, hjoin] using hcongr (h.ptr z) (by simp; tauto) (hi.ring.unlink hi.nodup))
        rfl hsize hne hreg
      exact ⟨r, hi', hfin, by simp; tauto, by simp, by omega, hne, hreg⟩
  · have hjoin : joinUpper h bp q = { h with ptr := update h.ptr bp (h.ptr q) } :=
      if_neg hU
    have hsize : ∀ a, (spliced h bp q).size a = h.size a := fun a => by simp [spliced, hjoin]
    have hreg : (spliced h bp q).regions = h.regions := by simp [spliced, hjoin]
    refine ⟨r, ⟨hi.head, ?_, ⟨q, by simp, rfl⟩, hi.sorted, hi.fresh, ?_, ?_⟩, ?_, by simp, le_rfl,
      (hsize bp).ge, fun a _ => hsize a, hreg⟩
    · simpa [spliced, hjoin] using hcongr (h.ptr q) (fun _ => id) (by simpa using hi.ring)
    · intro a ha b hb' hbb
      rw [fin_congr (hsize a)]
      exact hi.merged a ha b hb' hbb
    · exact hi.blocks.mono subset_rfl hsize hreg
    · intro y hy e
      rw [fin_congr (hsize bp)] at e
      have hby : bp < y := by
        rw [fin_eq] at e
        omega
      have hs := hi.sorted
      simp only [List.pairwise_append, List.pairwise_cons] at hs
      have hyq : q < y := hq.trans hby
      cases r with
      | nil =>
        have := le_or_above (m := y) hi.sorted (by simp) hy
        omega
      | cons z r =>
        have hz := hi.ring.next_mid
        have hbz := hr z (by simp)
        have hap := hi.blocks.apart bp (.inr hb) z (.inl (by simp)) hbz.ne
        simp only [Heap.Apart, fin_eq, hz] at hap e hU
        simp only [List.mem_append, List.mem_cons] at hy
        rcases hy with hy | rfl | rfl | hy
        · have := hs.2.2 y hy q (by simp)
          omega
        · omega
        · omega
        · have := (List.pairwise_cons.mp hs.2.1.2).1 y hy
          omega

theorem joinLower_eq (h : Heap) (bp q : ℕ) :
    joinLower (joinUpper h bp q) bp q =
      if (spliced h bp q).fin q = bp then
        { spliced h bp q with
          size := update (spliced h bp q).size q
            ((spliced h bp q).size q + (spliced h bp q).size bp) }
      else { spliced h bp q with ptr := update (spliced h bp q).ptr q bp } := by
  have hfin : (spliced h bp q).fin q = (joinUpper h bp q).fin q := rfl
  unfold joinLower
  rw [hfin]
  split_ifs <;> simp [spliced]

/-- `free` of a live block ends, and the block is in the list. -/
theorem free_inv (hi : Inv base h live L) (hb : bp ∈ live) (hk : L.length ≤ fuel) :
    ∃ h' L', free fuel h (bp + HEADER) = some h' ∧ Inv base h' (live.erase bp) L' ∧
      h'.regions = h.regions ∧ (∃ g ∈ L', h.size bp ≤ h'.size g) ∧ L'.length ≤ L.length + 1 ∧
      ∀ a ∈ live, a ≠ bp → h'.size a = h.size a := by
  have hout := hi.fresh bp hb
  have hbase := hi.base_lt hb
  obtain ⟨fs, hfs⟩ := hi.eq_cons
  obtain ⟨x, hx, hfreep⟩ := hi.freep
  obtain ⟨l, q, r, hsplit, hq, hr⟩ :=
    exists_below hi.sorted (by simp [hfs] : base ∈ L) hbase hout
  have hplace : place h.ptr bp fuel x = some q := by
    have hring := hi.ring
    have hsorted := hi.sorted
    rw [hfs] at hring hsorted hx hk hsplit
    exact place_eq hring hsorted hsplit hq hr hx hk
  have hfree : free fuel h (bp + HEADER) = some (joinLower (joinUpper h bp q) bp q) := by
    simp [free, hfreep, hplace]
  rw [hsplit] at hi hout
  obtain ⟨r', hi', hend, hsub, hlen, hsize, hother, hreg⟩ := joinUpper_inv hi hb hq hr
  have hqb : q ≠ bp := hq.ne
  have hqlive : q ∉ live := fun hm => hi.fresh q hm (by simp)
  have hinv := hi'.ring.link hi'.nodup (hi'.fresh bp hb) (by simp [spliced, hqb.symm])
  rw [hfree, joinLower_eq]
  by_cases hL : (spliced h bp q).fin q = bp
  · rw [if_pos hL]
    refine ⟨_, l ++ q :: r', rfl, hi'.extend hb hL hend hi'.ring rfl (by simp) ?_ rfl, hreg,
      ⟨q, by simp, ?_⟩, ?_, ?_⟩
    · intro a ha
      simp [ha]
    · simp
      omega
    · simp [hsplit]
      omega
    · intro a ha hab
      have : a ≠ q := fun e => hqlive (e ▸ ha)
      simp [this, hother a hab]
  · rw [if_neg hL]
    refine ⟨_, l ++ q :: bp :: r', rfl, hi'.put hb hq (fun y hy => hr y (hsub y hy)) hL hend
      hinv rfl (fun _ => rfl) rfl, hreg, ⟨bp, by simp, hsize⟩, ?_, fun a _ hab => hother a hab⟩
    simp [hsplit]
    omega

/-! ## New memory -/

theorem Blocks.fin_le {B : Set ℕ} {a : ℕ} (hB : Blocks base h B) (hf : Fresh base h (some a))
    (hx : x ∈ B) : h.fin x ≤ a := by
  obtain ⟨hba, hreg⟩ := hf a rfl
  by_cases hxb : x = base
  · rw [hxb, fin_eq, hB.size_base]
    omega
  · have hpos := hB.pos x hx hxb
    obtain ⟨g, hg, -, hlt⟩ := hB.inside x hx (h.fin x - 1) (by rw [fin_eq]; omega)
      (by rw [fin_eq]; omega)
    have := hreg g hg
    omega

theorem Inv.grow {a : ℕ} (hi : Inv base h live L) (hf : Fresh base h (some a)) (hn : 0 < n) :
    Inv base (grown h a n) (insert a live) L ∧ a ∉ live := by
  have hbase : base < a := by
    have := (hf a rfl).1
    unfold HEADER at this
    omega
  have hend := fun x hx => hi.blocks.fin_le (x := x) hf hx
  have hlt : ∀ x, x ∈ L ∨ x ∈ live → x < a := by
    intro x hx
    by_cases hxb : x = base
    · exact hxb ▸ hbase
    · have := hi.blocks.pos x hx hxb
      have := hend x hx
      rw [fin_eq] at this
      omega
  have hsize : ∀ x, x ∈ L ∨ x ∈ live → (grown h a n).size x = h.size x := fun x hx =>
    update_of_ne (hlt x hx).ne _ _
  have hfin := fun x hx => fin_congr (hsize x hx)
  have hfina : (grown h a n).fin a = a + HEADER * n := by simp [Heap.fin, grown]
  have hobt : ∀ x, h.Obtained x → (grown h a n).Obtained x := by
    rintro x ⟨g, hg, hx⟩
    exact ⟨g, List.mem_cons_of_mem _ hg, hx⟩
  have hcase : ∀ x, x ∈ L ∨ x ∈ insert a live → x = a ∨ (x ∈ L ∨ x ∈ live) := by
    intro x hx
    simp only [Finset.mem_insert] at hx
    tauto
  refine ⟨⟨hi.head, hi.ring, hi.freep, hi.sorted, ?_, ?_, ?_, ?_, ?_, ?_, ?_, ?_⟩, ?_⟩
  · intro x hx hm
    rcases Finset.mem_insert.mp hx with rfl | hx
    · exact (hlt x (.inl hm)).ne rfl
    · exact hi.fresh x hx hm
  · intro x hx y hy hyb
    rw [hfin x (.inl hx)]
    exact hi.merged x hx y hy hyb
  · rw [show (grown h a n).size base = h.size base from update_of_ne hbase.ne _ _]
    exact hi.blocks.size_base
  · intro x hx
    rcases hcase x hx with rfl | hx
    · exact hbase.le
    · exact hi.blocks.base_le x hx
  · intro x hx hxb
    rcases hcase x hx with rfl | hx
    · simpa [grown] using hn
    · rw [hsize x hx]
      exact hi.blocks.pos x hx hxb
  · intro x hx y hy hxy
    rcases hcase x hx with rfl | hx' <;> rcases hcase y hy with rfl | hy'
    · exact absurd rfl hxy
    · exact .inr (hfin y hy' ▸ hend y hy')
    · exact .inl (hfin x hx' ▸ hend x hx')
    · unfold Heap.Apart
      rw [hfin x hx', hfin y hy']
      exact hi.blocks.apart x hx' y hy' hxy
  · intro x hx z hz hlt
    rcases hcase x hx with rfl | hx
    · exact ⟨(x, HEADER * n), by simp [grown], hz, hfina ▸ hlt⟩
    · exact hobt z (hi.blocks.inside x hx z hz (hfin x hx ▸ hlt))
  · intro g hg
    rcases List.mem_cons.mp hg with rfl | hg
    · exact (hf a rfl).1
    · exact hi.blocks.above g hg
  · exact fun hm => (hlt a (.inr hm)).ne rfl

/-- `morecore` puts a block of the size asked for into the list. -/
theorem morecore_inv {a : ℕ} (hi : Inv base h live L) (hf : Fresh base h (some a)) (hn : 0 < n)
    (hk : L.length ≤ fuel) :
    ∃ h' L' x, morecore fuel h n (some a) = some (some x, h') ∧ h'.freep = some x ∧
      Inv base h' live L' ∧ (∃ g ∈ L', n ≤ h'.size g) ∧ L'.length ≤ L.length + 1 ∧
      ∀ b ∈ live, h'.size b = h.size b := by
  have hle : n ≤ coreUnits n := by
    unfold coreUnits
    split <;> omega
  obtain ⟨hi', hout⟩ := hi.grow hf (hn.trans_le hle)
  obtain ⟨h', L', hfree, hinv, -, ⟨g, hg, hgs⟩, hlen, hsize⟩ :=
    free_inv hi' (Finset.mem_insert_self a live) hk
  rw [Finset.erase_insert hout] at hinv
  obtain ⟨x, -, hx⟩ := hinv.freep
  refine ⟨h', L', x, ?_, hx, hinv, ⟨g, hg, ?_⟩, hlen, fun b hb => ?_⟩
  · simp [morecore, hfree, hx]
  · simp only [grown, update_self] at hgs
    exact hle.trans hgs
  · have hba : b ≠ a := fun e => hout (e ▸ hb)
    rw [hsize b (Finset.mem_insert_of_mem hb) hba]
    exact update_of_ne hba _ _

/-! ## Taking a block -/

theorem Blocks.split {B : Set ℕ} {c : ℕ} (hB : Blocks base h B) (hp : p ∈ B) (hpb : p ≠ base)
    (hn : 0 < n) (hlt : n < h.size p) (hc : c = p + HEADER * (h.size p - n))
    (hsize : h'.size p = h.size p - n) (hsizec : h'.size c = n)
    (hother : ∀ a, a ≠ p → a ≠ c → h'.size a = h.size a) (hreg : h'.regions = h.regions) :
    Blocks base h' (insert c B) ∧ c ∉ B := by
  have hle := hB.base_le p hp
  have hfinp : h'.fin p = c := by rw [fin_eq, hsize, hc, HEADER]
  have hfinc : h'.fin c = h.fin p := by
    rw [fin_eq, fin_eq, hsizec, hc, HEADER]
    omega
  have hpc : p < c := by
    rw [hc, HEADER]
    omega
  have hcp : c < h.fin p := by
    rw [← hfinc, fin_eq, hsizec]
    omega
  have hout : c ∉ B := by
    intro hm
    have := hB.apart p hp c hm hpc.ne
    simp only [Heap.Apart, fin_eq] at this hcp
    omega
  have hfin : ∀ a ∈ B, a ≠ p → h'.fin a = h.fin a := fun a ha hap =>
    fin_congr (hother a hap fun e => hout (e ▸ ha))
  have hobt : ∀ x, h.Obtained x → h'.Obtained x := fun x hx => by
    simpa [Heap.Obtained, hreg] using hx
  have hone : ∀ b ∈ B, b ≠ p → h'.Apart p b ∧ h'.Apart c b := by
    intro b hb hbp
    have := hB.apart p hp b hb (Ne.symm hbp)
    unfold Heap.Apart at this ⊢
    rw [hfinp, hfinc, hfin b hb hbp]
    omega
  refine ⟨⟨?_, ?_, ?_, ?_, ?_, hreg ▸ hB.above⟩, hout⟩
  · rw [hother base (Ne.symm hpb) (by omega)]
    exact hB.size_base
  · rintro a (rfl | ha)
    · omega
    · exact hB.base_le a ha
  · rintro a (rfl | ha) hab
    · rwa [hsizec]
    · by_cases e : a = p
      · rw [e, hsize]
        omega
      · rw [hother a e fun e' => hout (e' ▸ ha)]
        exact hB.pos a ha hab
  · rintro a (rfl | ha) b (rfl | hb) hab
    · exact absurd rfl hab
    · by_cases e : b = p
      · rw [e]
        exact .inr hfinp.le
      · exact (hone b hb e).2
    · by_cases e : a = p
      · rw [e]
        exact .inl hfinp.le
      · exact (hone a ha e).2.symm
    · by_cases e : a = p
      · rw [e] at hab ⊢
        exact (hone b hb (Ne.symm hab)).1
      · by_cases e' : b = p
        · rw [e']
          exact (hone a ha e).1.symm
        · have := hB.apart a ha b hb hab
          unfold Heap.Apart at this ⊢
          rwa [hfin a ha e, hfin b hb e']
  · rintro a (rfl | ha) x hax hx
    · exact hobt x (hB.inside p hp x (by omega) (hfinc ▸ hx))
    · by_cases e : a = p
      · rw [e] at hax hx
        exact hobt x (hB.inside p hp x hax (by omega))
      · exact hobt x (hB.inside a ha x hax (hfin a ha e ▸ hx))

/-- The block `malloc` takes was in the list, whole or as the end of a larger one. -/
theorem carve_inv (hi : Inv base h live L) (hx : x ∈ L) (hn : 0 < n)
    (hle : n ≤ h.size (h.ptr x)) :
    ∃ c h' L', carve h n x (h.ptr x) = (some (c + HEADER), h') ∧ c ∉ live ∧ h'.size c = n ∧
      Inv base h' (insert c live) L' ∧ ∀ b ∈ live, h'.size b = h.size b := by
  obtain ⟨fs, hfs⟩ := hi.eq_cons
  have hpL := hi.ring.next_mem hx
  have hpb : h.ptr x ≠ base := by
    intro e
    rw [e, hi.blocks.size_base] at hle
    omega
  by_cases heq : h.size (h.ptr x) = n
  · -- the whole block
    have hcases := (hfs ▸ hi.ring).next_cases (hfs ▸ hx)
    obtain ⟨u, z, v, huv, hz⟩ | ⟨u, -, hz⟩ := hcases
    · rw [← hfs] at huv
      subst huv
      have hunlink := hi.ring.unlink hi.nodup
      have hout : z ∉ u ++ x :: v := by
        intro hm
        have hd : ((u ++ [x]) ++ z :: v).Nodup := by simpa using hi.nodup
        exact (List.nodup_cons.mp (List.nodup_middle.mp hd)).1 (by simpa using hm)
      have hsub : ∀ a ∈ u ++ x :: v, a ∈ u ++ x :: z :: v := by simp; tauto
      rw [hz] at heq hpL ⊢
      rw [carve, if_pos heq]
      refine ⟨z, _, u ++ x :: v, rfl, fun hm => hi.fresh z hm hpL, heq,
        ⟨?_, hunlink, ⟨x, by simp, rfl⟩, hi.sorted.sublist (by simp), ?_, ?_, ?_⟩,
        fun _ _ => rfl⟩
      · have := hi.head
        cases u <;> simpa using this
      · intro a ha hm
        rcases Finset.mem_insert.mp ha with rfl | ha
        · exact hout hm
        · exact hi.fresh a ha (hsub a hm)
      · exact fun a ha b hb hbb => hi.merged a (hsub a ha) b (hsub b hb) hbb
      · refine hi.blocks.mono ?_ (fun _ => rfl) rfl
        rintro a (ha | ha)
        · exact .inl (hsub a ha)
        · rcases Finset.mem_insert.mp ha with rfl | ha
          · exact .inl (by simp)
          · exact .inr ha
    · exact absurd hz hpb
  · -- its upper end
    set p := h.ptr x
    set c := p + HEADER * (h.size p - n) with hc
    have hlt : n < h.size p := lt_of_le_of_ne hle (Ne.symm heq)
    have hpc : p ≠ c := by
      rw [hc, HEADER]
      omega
    let h' : Heap := { h with
      size := update (update h.size p (h.size p - n)) c n
      freep := some x }
    have hsizep : h'.size p = h.size p - n := by simp [h', hpc]
    have hsizec : h'.size c = n := by simp [h']
    have hother : ∀ a, a ≠ p → a ≠ c → h'.size a = h.size a := fun a hap hac => by
      simp [h', hap, hac]
    obtain ⟨hB, hout⟩ := hi.blocks.split (.inl hpL) hpb hn hlt hc hsizep hsizec hother rfl
    have hcL : c ∉ L := fun hm => hout (.inl hm)
    have hclive : c ∉ live := fun hm => hout (.inr hm)
    refine ⟨c, h', L, by rw [carve, if_neg heq], hclive, hsizec,
      ⟨hi.head, hi.ring, ⟨x, hx, rfl⟩, hi.sorted, ?_, ?_, hB.mono ?_ (fun _ => rfl) rfl⟩,
      fun b hb => hother b (fun e => hi.fresh b hb (e ▸ hpL)) fun e => hclive (e ▸ hb)⟩
    · intro a ha
      rcases Finset.mem_insert.mp ha with rfl | ha
      · exact hcL
      · exact hi.fresh a ha
    · intro a ha b hb hbb
      by_cases e : a = p
      · have : h'.fin p = c := by rw [fin_eq, hsizep, hc, HEADER]
        rw [e, this]
        exact fun e' => hcL (e' ▸ hb)
      · rw [fin_congr (hother a e fun e' => hcL (e' ▸ ha))]
        exact hi.merged a ha b hb hbb
    · rintro a (ha | ha)
      · exact .inr (.inl ha)
      · rcases Finset.mem_insert.mp ha with rfl | ha
        · exact .inl rfl
        · exact .inr (.inr ha)

end DuckoUnix.Umalloc
