import DuckoUnix.Vm.Kalloc

/-!
# Fetching system call arguments

`syscall.c` and the walk of the argument vector in `sys_exec`. The kernel runs on the page table of
the process, so it follows a user pointer directly; where no page is present it takes a page fault.
All arithmetic is that of `uint` and `int`. The state is the list of the addresses that the kernel
has loaded from; no code reads it.

Every check is against `sz`, and `sz < KERNBASE` is what keeps the sums in the checks from wrapping
around: a pointer that passed the first comparison is below 2³¹, and so is a size that is not
negative.
-/

namespace DuckoUnix.Syscall

open Lib Vm

/-- What the fetching functions read of a process. -/
structure User where
  sz : BitVec 32
  /-- the saved user stack pointer -/
  esp : BitVec 32
  /-- the byte at an address; none where no page is present -/
  mem : BitVec 32 → Option (BitVec 8)

/-- How the kernel stops. -/
inductive Fault
  | page

abbrev K := Prog (List (BitVec 32)) Fault

def load (u : User) (a : BitVec 32) : K (BitVec 8) := do
  modify fun t => a :: t
  match u.mem a with
  | none => throw .page
  | some v => return v

/-- Fetch the int at `addr`; none for -1. -/
def fetchint (u : User) (addr : BitVec 32) : K (Option (BitVec 32)) := do
  if u.sz ≤ addr ∨ u.sz < addr + 4 then return none
  else
    let b0 ← load u addr
    let b1 ← load u (addr + 1)
    let b2 ← load u (addr + 2)
    let b3 ← load u (addr + 3)
    return some (b3 ++ b2 ++ b1 ++ b0)

/-- The loop of `fetchstr` over `s`; the first argument bounds the iterations. -/
def fetchstrLoop (u : User) (pp : BitVec 32) : ℕ → BitVec 32 → K (Option (BitVec 32))
  | 0, _ => return none
  | k + 1, s => do
    if s < u.sz then
      if (← load u s) = 0 then return some (s - pp) else fetchstrLoop u pp k (s + 1)
    else return none

/-- Fetch the nul-terminated string at `addr`: its address and its length; none for -1. -/
def fetchstr (u : User) (addr : BitVec 32) : K (Option (BitVec 32 × BitVec 32)) := do
  if u.sz ≤ addr then return none
  else return (← fetchstrLoop u addr u.sz.toNat addr).map fun n => (addr, n)

/-- Fetch the `n`th 32-bit system call argument. -/
def argint (u : User) (n : BitVec 32) : K (Option (BitVec 32)) := fetchint u (u.esp + 4 + 4 * n)

/-- Fetch the `n`th argument as a pointer to a block of memory of `size` bytes. -/
def argptr (u : User) (n size : BitVec 32) : K (Option (BitVec 32)) := do
  match ← argint u n with
  | none => return none
  | some i =>
    if size.slt 0 ∨ u.sz ≤ i ∨ u.sz < i + size then return none else return some i

/-- Fetch the `n`th argument as a string pointer. -/
def argstr (u : User) (n : BitVec 32) : K (Option (BitVec 32 × BitVec 32)) := do
  match ← argint u n with
  | none => return none
  | some addr => fetchstr u addr

/-- The loop of `sys_exec` from index `i` on, with `k` places of `argv` to go. -/
def execLoop (u : User) (uargv : BitVec 32) :
    ℕ → BitVec 32 → K (Option (List (BitVec 32 × BitVec 32)))
  | 0, _ => return none
  | k + 1, i => do
    match ← fetchint u (uargv + 4 * i) with
    | none => return none
    | some uarg =>
      if uarg = 0 then return some []
      else
        match ← fetchstr u uarg with
        | none => return none
        | some arg => return (← execLoop u uargv k (i + 1)).map fun argv => arg :: argv

/-- `sys_exec` up to the call of `exec`: the path and the arguments. -/
def sys_exec (u : User) : K (Option ((BitVec 32 × BitVec 32) × List (BitVec 32 × BitVec 32))) := do
  match ← argstr u 0 with
  | none => return none
  | some path =>
    match ← argint u 1 with
    | none => return none
    | some uargv => return (← execLoop u uargv MAXARG 0).map fun argv => (path, argv)

/-! ## What is safe to use -/

/-- A process below the kernel whose pages are present. -/
structure User.Mapped (u : User) : Prop where
  sz_lt : u.sz.toNat < KERNBASE
  present : ∀ a, a.toNat < PGROUNDUP u.sz.toNat → (u.mem a).isSome

/-- The `n` bytes at `a` are below `sz`, and the end of the block has not wrapped around. -/
def User.Block (u : User) (a n : BitVec 32) : Prop :=
  (a + n).toNat = a.toNat + n.toNat ∧ ∀ k < n.toNat, a.toNat + k < u.sz.toNat

/-- A string of `n` bytes at `a`, which lies with its NUL below `sz`. -/
def User.Str (u : User) (a n : BitVec 32) : Prop :=
  u.Block a (n + 1) ∧ (n + 1).toNat = n.toNat + 1 ∧ 0 ≤ n.toInt ∧ u.mem (a + n) = some 0 ∧
    ∀ k < n, ∃ c ≠ 0, u.mem (a + k) = some c

/-- All addresses that were loaded from are below `sz`. -/
def User.Below (u : User) (t : List (BitVec 32)) : Prop := ∀ a ∈ t, a.toNat < u.sz.toNat

variable {u : User} {t : List (BitVec 32)} {a addr n size s pp uargv : BitVec 32}

theorem User.Mapped.isSome (hu : u.Mapped) (h : a.toNat < u.sz.toNat) : ∃ v, u.mem a = some v := by
  refine Option.isSome_iff_exists.mp (hu.present a (Nat.lt_of_lt_of_le h ?_))
  have := hu.sz_lt
  unfold KERNBASE at this
  unfold PGROUNDUP PGROUNDDOWN UINT PGSIZE
  omega

theorem load_spec (hu : u.Mapped) (ht : u.Below t) (h : a.toNat < u.sz.toNat) :
    wp (fun _ => False) (load u a) (fun v t => u.Below t ∧ u.mem a = some v) t := by
  obtain ⟨v, hv⟩ := hu.isSome h
  unfold load
  rw [wp_bind, wp_modify, hv]
  refine ⟨?_, rfl⟩
  intro b hb
  rcases List.mem_cons.mp hb with rfl | hb
  · exact h
  · exact ht b hb

/-- The check of `fetchint` and `argptr` for a size that is not negative. -/
theorem block_of_check (hu : u.Mapped) (hn : n.toNat < KERNBASE) (ha : ¬ u.sz ≤ a)
    (h : ¬ u.sz < a + n) : u.Block a n := by
  have := hu.sz_lt
  unfold KERNBASE at this hn
  rw [BitVec.le_def] at ha
  rw [BitVec.lt_def, BitVec.toNat_add] at h
  have hsum : (a.toNat + n.toNat) % 2 ^ 32 = a.toNat + n.toNat := Nat.mod_eq_of_lt (by omega)
  rw [hsum] at h
  refine ⟨by rw [BitVec.toNat_add, hsum], fun k hk => by omega⟩

theorem User.Block.toNat_add (h : u.Block a n) {k : BitVec 32} (hk : k.toNat < n.toNat) :
    (a + k).toNat < u.sz.toNat := by
  rw [BitVec.toNat_add]
  exact Nat.lt_of_le_of_lt (Nat.mod_le _ _) (h.2 _ hk)

theorem fetchint_spec (hu : u.Mapped) (ht : u.Below t) :
    wp (fun _ => False) (fetchint u addr)
      (fun r t => u.Below t ∧ ∀ v, r = some v → u.Block addr 4) t := by
  unfold fetchint
  refine wp_ite (fun _ => ⟨ht, fun v hv => nomatch hv⟩) fun hc => ?_
  obtain ⟨h0, h4⟩ := not_or.mp hc
  have hb : u.Block addr 4 := block_of_check hu (by decide) h0 h4
  have hzero : addr.toNat < u.sz.toNat := hb.2 0 (by decide)
  rw [wp_bind]
  refine wp_mono (load_spec hu ht hzero) fun b0 t ht => ?_
  rw [wp_bind]
  refine wp_mono (load_spec hu ht.1 (hb.toNat_add (by decide))) fun b1 t ht => ?_
  rw [wp_bind]
  refine wp_mono (load_spec hu ht.1 (hb.toNat_add (by decide))) fun b2 t ht => ?_
  rw [wp_bind]
  refine wp_mono (load_spec hu ht.1 (hb.toNat_add (by decide))) fun b3 t ht => ?_
  exact ⟨ht.1, fun _ _ => hb⟩

/-- The loop of `fetchstr` at `s`, with no NUL between `pp` and `s`. -/
theorem fetchstrLoop_spec (hu : u.Mapped) (k : ℕ) (ht : u.Below t) (hle : pp ≤ s)
    (hpre : ∀ j < s - pp, ∃ c ≠ 0, u.mem (pp + j) = some c) :
    wp (fun _ => False) (fetchstrLoop u pp k s)
      (fun r t => u.Below t ∧ ∀ n, r = some n → u.Str pp n) t := by
  induction k generalizing s t with
  | zero => exact ⟨ht, fun n hn => nomatch hn⟩
  | succ k ih =>
    unfold fetchstrLoop
    refine wp_ite (fun hs => ?_) fun _ => ⟨ht, fun n hn => nomatch hn⟩
    have hsz := hu.sz_lt
    unfold KERNBASE at hsz
    rw [BitVec.lt_def] at hs
    rw [BitVec.le_def] at hle
    have hsub : (s - pp).toNat = s.toNat - pp.toNat := BitVec.toNat_sub_of_le hle
    rw [wp_bind]
    refine wp_mono (load_spec hu ht hs) fun v t ⟨ht, hv⟩ => ?_
    refine wp_ite (fun h0 => ⟨ht, ?_⟩) fun h0 => ?_
    · -- the NUL is at `s`
      rintro n ⟨⟩
      have hsucc : (s - pp + 1).toNat = (s - pp).toNat + 1 := by
        rw [BitVec.toNat_add, hsub]
        exact Nat.mod_eq_of_lt (by show _ + 1 < _; omega)
      have hend : (pp + (s - pp + 1)).toNat = pp.toNat + (s - pp + 1).toNat := by
        rw [BitVec.toNat_add, Nat.mod_eq_of_lt (by omega)]
      refine ⟨⟨hend, fun j hj => by omega⟩, hsucc, ?_, ?_, hpre⟩
      · rw [BitVec.toInt_eq_toNat_of_lt (by omega)]
        omega
      · rw [BitVec.add_comm, BitVec.sub_add_cancel, hv, h0]
    · have hnext : (s + 1).toNat = s.toNat + 1 := by
        rw [BitVec.toNat_add]
        exact Nat.mod_eq_of_lt (by show _ + 1 < _; omega)
      have hle' : pp ≤ s + 1 := by rw [BitVec.le_def]; omega
      refine ih ht hle' fun j hj => ?_
      rw [BitVec.lt_def, BitVec.toNat_sub_of_le hle', hnext] at hj
      by_cases hlt : j < s - pp
      · exact hpre j hlt
      · have hj' : j = s - pp := by
          rw [BitVec.lt_def, hsub] at hlt
          refine BitVec.eq_of_toNat_eq ?_
          omega
        refine ⟨v, h0, ?_⟩
        rw [hj', BitVec.add_comm, BitVec.sub_add_cancel, hv]

theorem fetchstr_spec (hu : u.Mapped) (ht : u.Below t) :
    wp (fun _ => False) (fetchstr u addr)
      (fun r t => u.Below t ∧ ∀ p n, r = some (p, n) → p = addr ∧ u.Str p n) t := by
  unfold fetchstr
  refine wp_ite (fun _ => ⟨ht, fun p n h => nomatch h⟩) fun _ => ?_
  rw [wp_bind]
  have hpre : ∀ j < addr - addr, ∃ c ≠ 0, u.mem (addr + j) = some c := by
    intro j hj
    rw [BitVec.sub_self, BitVec.lt_def] at hj
    exact absurd hj (Nat.not_lt_zero _)
  refine wp_mono (fetchstrLoop_spec hu _ ht (BitVec.le_refl _) hpre) fun r t ⟨ht, hr⟩ => ⟨ht, ?_⟩
  intro p n hpn
  obtain ⟨m, hm, heq⟩ := Option.map_eq_some_iff.mp hpn
  cases heq
  exact ⟨rfl, hr n hm⟩

theorem argint_spec (hu : u.Mapped) (ht : u.Below t) :
    wp (fun _ => False) (argint u n)
      (fun r t => u.Below t ∧ ∀ v, r = some v → u.Block (u.esp + 4 + 4 * n) 4) t :=
  fetchint_spec hu ht

theorem argptr_spec (hu : u.Mapped) (ht : u.Below t) :
    wp (fun _ => False) (argptr u n size)
      (fun r t => u.Below t ∧ ∀ p, r = some p → u.Block p size) t := by
  unfold argptr
  rw [wp_bind]
  refine wp_mono (argint_spec hu ht) fun r t ⟨ht, _⟩ => ?_
  cases r with
  | none => exact ⟨ht, fun p hp => nomatch hp⟩
  | some i =>
    refine wp_ite (fun _ => ⟨ht, fun p hp => nomatch hp⟩) fun hc => ⟨ht, ?_⟩
    rintro p ⟨⟩
    obtain ⟨hneg, hc⟩ := not_or.mp hc
    obtain ⟨hi, hend⟩ := not_or.mp hc
    refine block_of_check hu ?_ hi hend
    have hmsb : size.msb = false :=
      Bool.eq_false_iff.mpr fun h => hneg (BitVec.slt_zero_iff_msb_cond.mpr h)
    have hlt := BitVec.msb_eq_false_iff_two_mul_lt.mp hmsb
    unfold KERNBASE
    omega

theorem argstr_spec (hu : u.Mapped) (ht : u.Below t) :
    wp (fun _ => False) (argstr u n)
      (fun r t => u.Below t ∧ ∀ p l, r = some (p, l) → u.Str p l) t := by
  unfold argstr
  rw [wp_bind]
  refine wp_mono (argint_spec hu ht) fun r t ⟨ht, _⟩ => ?_
  cases r with
  | none => exact ⟨ht, fun p l h => nomatch h⟩
  | some addr =>
    exact wp_mono (fetchstr_spec hu ht) fun r t ⟨ht, hr⟩ => ⟨ht, fun p l h => (hr p l h).2⟩

theorem execLoop_spec (hu : u.Mapped) (k : ℕ) {i : BitVec 32} (ht : u.Below t) :
    wp (fun _ => False) (execLoop u uargv k i)
      (fun r t => u.Below t ∧ ∀ argv, r = some argv → ∀ arg ∈ argv, u.Str arg.1 arg.2) t := by
  induction k generalizing i t with
  | zero => exact ⟨ht, fun argv h => nomatch h⟩
  | succ k ih =>
    unfold execLoop
    rw [wp_bind]
    refine wp_mono (fetchint_spec hu ht) fun r t ⟨ht, _⟩ => ?_
    cases r with
    | none => exact ⟨ht, fun argv h => nomatch h⟩
    | some uarg =>
      refine wp_ite (fun _ => ⟨ht, ?_⟩) fun _ => ?_
      · rintro argv ⟨⟩ arg harg
        exact nomatch harg
      · rw [wp_bind]
        refine wp_mono (fetchstr_spec hu ht) fun r t ⟨ht, hr⟩ => ?_
        cases r with
        | none => exact ⟨ht, fun argv h => nomatch h⟩
        | some arg =>
          dsimp only
          rw [wp_bind]
          refine wp_mono (ih ht) fun r t ⟨ht, hrest⟩ => ⟨ht, fun argv h => ?_⟩
          obtain ⟨rest, hrest', rfl⟩ := Option.map_eq_some_iff.mp h
          intro a ha
          rcases List.mem_cons.mp ha with rfl | ha
          · exact (hr a.1 a.2 rfl).2
          · exact hrest rest hrest' a ha

theorem sys_exec_spec (hu : u.Mapped) (ht : u.Below t) :
    wp (fun _ => False) (sys_exec u) (fun r t => u.Below t ∧ ∀ path argv, r = some (path, argv) →
      u.Str path.1 path.2 ∧ ∀ arg ∈ argv, u.Str arg.1 arg.2) t := by
  unfold sys_exec
  rw [wp_bind]
  refine wp_mono (argstr_spec hu ht) fun r t ⟨ht, hpath⟩ => ?_
  cases r with
  | none => exact ⟨ht, fun path argv h => nomatch h⟩
  | some path =>
    dsimp only
    rw [wp_bind]
    refine wp_mono (argint_spec hu ht) fun r t ⟨ht, _⟩ => ?_
    cases r with
    | none => exact ⟨ht, fun path argv h => nomatch h⟩
    | some uargv =>
      dsimp only
      rw [wp_bind]
      refine wp_mono (execLoop_spec hu _ ht) fun r t ⟨ht, hargv⟩ => ⟨ht, fun path' argv h => ?_⟩
      obtain ⟨rest, hrest, heq⟩ := Option.map_eq_some_iff.mp h
      cases heq
      exact ⟨hpath path.1 path.2 rfl, hargv argv hrest⟩

/-- The kernel follows user pointers only to addresses below `sz`, so it takes no page fault, and
what it accepts lies there as a whole: the word of an int, the block of a pointer, and a string with
its NUL, for a single argument and for each argument of `exec`. -/
theorem user_pointers_safe (u : User) (hu : u.Mapped) :
    (∀ addr, wp (fun _ => False) (fetchint u addr)
      (fun r t => u.Below t ∧ ∀ v, r = some v → u.Block addr 4) []) ∧
    (∀ addr, wp (fun _ => False) (fetchstr u addr)
      (fun r t => u.Below t ∧ ∀ p n, r = some (p, n) → p = addr ∧ u.Str p n) []) ∧
    (∀ n, wp (fun _ => False) (argint u n)
      (fun r t => u.Below t ∧ ∀ v, r = some v → u.Block (u.esp + 4 + 4 * n) 4) []) ∧
    (∀ n size, wp (fun _ => False) (argptr u n size)
      (fun r t => u.Below t ∧ ∀ p, r = some p → u.Block p size) []) ∧
    (∀ n, wp (fun _ => False) (argstr u n)
      (fun r t => u.Below t ∧ ∀ p l, r = some (p, l) → u.Str p l) []) ∧
    wp (fun _ => False) (sys_exec u) (fun r t => u.Below t ∧ ∀ path argv, r = some (path, argv) →
      u.Str path.1 path.2 ∧ ∀ arg ∈ argv, u.Str arg.1 arg.2) [] := by
  have hnil : u.Below [] := fun a ha => nomatch ha
  refine ⟨fun addr => fetchint_spec hu hnil, fun addr => fetchstr_spec hu hnil,
    fun n => argint_spec hu hnil, fun n size => argptr_spec hu hnil,
    fun n => argstr_spec hu hnil, sys_exec_spec hu hnil⟩

/-- A process of one page that is all NULs. -/
def onePage : User := ⟨4096, 4000, fun _ => some 0⟩

theorem user_pointers_safe_onePage :
    onePage.Mapped ∧ wp (fun _ => False) (argptr onePage 0 96)
      (fun r t => onePage.Below t ∧ ∀ p, r = some p → onePage.Block p 96) [] :=
  have hmapped : onePage.Mapped := ⟨by decide, fun _ _ => rfl⟩
  ⟨hmapped, (user_pointers_safe onePage hmapped).2.2.2.1 0 96⟩

end DuckoUnix.Syscall
