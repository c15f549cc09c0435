import Mathlib.Data.List.DropRight
import DuckoUnix.Inode.Namei
import DuckoUnix.Lib.Run

/-!
# The prompt of the shell

`cd` at the shell: `chdir` moves the process, and `current_dir`, which the prompt shows, is kept in step
with it by string operations alone. `..` sets it to the root, and an absolute path is appended like any
other. The array has 100 bytes and nothing checks that the string fits; what is in it are the arguments
since the last `/` or `..`, with a slash before each.
-/

namespace DuckoUnix.Sh

open Lib Fs Inode

/-- `sizeof(current_dir)` -/
def CURRENT_DIR : ℕ := 100

def dotdot : List (BitVec 8) := [46, 46]

/-- `sys_chdir` in a tree of nodes: the new working directory, none if it fails. -/
def chdir (N : ℕ → Node) (cwd : ℕ) (path : List (BitVec 8)) : Option ℕ :=
  (walk N (startOf path cwd) (components path)).filter fun i => (N i).attr.type = T_DIR

/-- The string in `current_dir` and the working directory of the process. -/
structure Prompt where
  dir : List (BitVec 8)
  cwd : ℕ

/-- `strcat(current_dir, src)`; none if it writes behind the array. -/
def strcat (dir src : List (BitVec 8)) : Option (List (BitVec 8)) :=
  if dir.length + src.length < CURRENT_DIR then some (dir ++ src) else none

/-- A line `cd arg`. -/
def cd (N : ℕ → Node) (s : Prompt) (arg : List (BitVec 8)) : Option Prompt :=
  match chdir N s.cwd arg with
  | none => some s
  | some cwd =>
    if arg = [slash] ∨ arg = dotdot then some ⟨[slash], cwd⟩
    else
      (if s.dir ≠ [slash] then strcat s.dir [slash] else some s.dir).bind fun dir =>
        (strcat dir arg).map (⟨·, cwd⟩)

/-- The shell is started in the root. -/
def home : Prompt := ⟨[slash], ROOTINO⟩

/-- The string leads from the root to the working directory. -/
def Prompt.Names (N : ℕ → Node) (s : Prompt) : Prop :=
  walk N ROOTINO (components s.dir) = some s.cwd

/-- `..` leads to the root, and an absolute path, if it is appended, from the working directory to where
it leads from the root. -/
def Kept (N : ℕ → Node) (s : Prompt) (arg : List (BitVec 8)) : Prop :=
  ∀ cwd ∈ chdir N s.cwd arg, (arg = dotdot → cwd = ROOTINO) ∧
    (arg.head? = some slash → arg ≠ [slash] → s.dir ≠ [slash] →
      walk N s.cwd (components arg) = some cwd)

instance (N : ℕ → Node) (s : Prompt) (arg : List (BitVec 8)) : Decidable (Kept N s arg) :=
  inferInstanceAs (Decidable (∀ cwd ∈ chdir N s.cwd arg, _ ∧ (_ → _ → _ → _)))

/-- The arguments of the successful `cd`s. -/
def taken (N : ℕ → Node) : ℕ → List (List (BitVec 8)) → List (List (BitVec 8))
  | _, [] => []
  | cwd, arg :: args =>
    match chdir N cwd arg with
    | none => taken N cwd args
    | some cwd => arg :: taken N cwd args

/-- The length of the string after successful `cd`s: each argument since the last `/` or `..` with a
slash before it, where empty arguments count only behind another. -/
def shown (args : List (List (BitVec 8))) : ℕ :=
  max 1 ((((args.rtakeWhile fun a => ¬ (a = [slash] ∨ a = dotdot)).dropWhile (· = [])).map
    (·.length + 1)).sum)

variable {N : ℕ → Node} {s s' : Prompt} {arg path : List (BitVec 8)} {i cwd : ℕ}

/-! ## Where the string leads -/

/-- `chdir` goes where `namei` leads, if that is a directory. -/
theorem namei_chdir {s : Store} {cwd : Ip} (h : TreeReady s cwd) (hroom : TwoPlaces s)
    (path : List (BitVec 8)) : ∃ r s', (namei cwd path).code s = .ok (r, s') ∧
      chdir (nodes s) (s.icache cwd).inum path =
        (r.map fun ip => (s'.icache ip).inum).filter fun i => (nodes s i).attr.type = T_DIR := by
  obtain ⟨r, s', hs', hr⟩ := h.namei hroom path
  exact ⟨r, s', hs', by rw [hr]; rfl⟩

theorem components_append (p q : List (BitVec 8)) :
    components (p ++ slash :: q) = components p ++ components q := by
  unfold components
  rw [List.splitOn_eq_splitOnP, List.splitOnP_append_cons p q (by decide), List.filter_append,
    List.map_append]
  rfl

theorem walk_append (xs ys : List (List (BitVec 8))) :
    walk N i (xs ++ ys) = (walk N i xs).bind fun j => walk N j ys := by
  induction xs generalizing i with
  | nil => rfl
  | cons x xs ih =>
    rw [List.cons_append, walk, walk]
    split_ifs
    · rw [Option.bind_assoc]
      exact congrArg _ (funext fun j => ih)
    · rfl

theorem walk_of_chdir (h : chdir N cwd path = some i) :
    walk N (startOf path cwd) (components path) = some i :=
  (Option.filter_eq_some_iff.mp h).1

/-- The string behind a successful `cd`. -/
def nextDir (dir arg : List (BitVec 8)) : List (BitVec 8) :=
  if arg = [slash] ∨ arg = dotdot then [slash]
  else if dir = [slash] then slash :: arg else dir ++ slash :: arg

theorem cd_eq (hc : chdir N s.cwd arg = some cwd) :
    cd N s arg = if (nextDir s.dir arg).length < CURRENT_DIR then some ⟨nextDir s.dir arg, cwd⟩
      else none := by
  simp only [cd, hc]
  unfold nextDir
  by_cases hreset : arg = [slash] ∨ arg = dotdot
  · rw [if_pos hreset, if_pos hreset]
    rfl
  · rw [if_neg hreset, if_neg hreset]
    by_cases hroot : s.dir = [slash]
    · rw [if_neg (not_not.mpr hroot), if_pos hroot, Option.bind_some, hroot, strcat,
        List.length_singleton, Nat.add_comm, List.length_cons]
      split_ifs <;> rfl
    · rw [if_pos hroot, if_neg hroot, strcat]
      simp only [List.length_append, List.length_cons, List.length_nil]
      split_ifs with h₁ h₂ h₂
      · rw [Option.bind_some, strcat, if_pos (by simp; omega), Option.map_some]
        simp
      · rw [Option.bind_some, strcat, if_neg (by simp; omega), Option.map_none]
      · omega
      · rfl

theorem Prompt.Names.cd (hs : s.Names N) (hk : Kept N s arg) (h : cd N s arg = some s') :
    s'.Names N := by
  cases hc : chdir N s.cwd arg with
  | none =>
    simp only [Sh.cd, hc] at h
    cases h
    exact hs
  | some cwd =>
    have hwalk := walk_of_chdir hc
    have hkept := hk cwd hc
    rw [cd_eq hc] at h
    split_ifs at h
    cases h
    unfold Prompt.Names nextDir
    dsimp only
    split_ifs with hreset hroot
    · have hcwd : ROOTINO = cwd := by
        rcases hreset with rfl | hdots
        · exact Option.some.inj hwalk
        · exact (hkept.1 hdots).symm
      rw [← hcwd]
      rfl
    · have hhome : ROOTINO = s.cwd := by
        rw [Prompt.Names, hroot] at hs
        exact Option.some.inj hs
      rw [components_slash, ← hwalk, ← hhome]
      unfold startOf
      split_ifs <;> rfl
    · rw [components_append, walk_append, hs, Option.bind_some]
      by_cases habs : arg.head? = some slash
      · exact hkept.2 habs (fun e => hreset (.inl e)) hroot
      · rw [← hwalk, startOf, if_neg habs]

/-- For every tree and every sequence of `cd`s: as long as `..` only leads to the root, and an absolute
path is only given where it leads to the same directory from the root and from the working directory or
the prompt shows the root, the prompt names the working directory. -/
theorem prompt_names_cwd (N : ℕ → Node) {args : List (List (BitVec 8))} {s : Prompt}
    (hk : Meets (cd N) (Kept N) home args) (hrun : run (cd N) home args = some s) : s.Names N := by
  have hhome : home.Names N := rfl
  exact run_invariant (fun _ _ _ hs hk h => Prompt.Names.cd hs hk h) hhome hk hrun

def directory (es : List (BitVec 16 × List (BitVec 8))) : Node where
  attr := ⟨T_DIR, 0, 0, 1⟩
  data := es.flatMap fun e => (⟨e.1, strncpy e.2 DIRSIZ⟩ : Dirent).bytes

/-- The directories `/`, `/a` and `/a/b`. -/
def tree : ℕ → Node
  | 1 => directory [(1, [46]), (1, dotdot), (2, [97])]
  | 2 => directory [(2, [46]), (1, dotdot), (3, [98])]
  | _ => directory [(3, [46]), (2, dotdot)]

theorem prompt_names_cwd_down :
    ∃ s, run (cd tree) home [[97], [98]] = some s ∧ s.Names tree := by
  have hsome : (run (cd tree) home [[97], [98]]).isSome := by decide +kernel
  obtain ⟨s, hs⟩ := Option.isSome_iff_exists.mp hsome
  exact ⟨s, hs, prompt_names_cwd tree (by decide +kernel) hs⟩

/-- `cd ..` in `/a/b` leads to `/a`, and the prompt shows the root. -/
theorem dotdot_shows_root :
    (run (cd tree) home [[97], [98], dotdot]).map (fun s => (s.dir, s.cwd)) = some ([slash], 2) ∧
      walk tree ROOTINO (components [slash]) = some 1 := by
  decide +kernel

/-! ## The length of the string -/

theorem shown_append (args : List (List (BitVec 8))) (a : List (BitVec 8)) :
    shown (args ++ [a]) = if a = [slash] ∨ a = dotdot then 1
      else if shown args = 1 then 1 + a.length else shown args + 1 + a.length := by
  unfold shown
  by_cases hreset : a = [slash] ∨ a = dotdot
  · rw [if_pos hreset, List.rtakeWhile_concat_neg _ _ _ (by simp [hreset])]
    rfl
  · rw [if_neg hreset, List.rtakeWhile_concat_pos _ _ _ (by simpa using hreset)]
    generalize args.rtakeWhile (fun a => decide ¬ (a = [slash] ∨ a = dotdot)) = w
    rw [List.dropWhile_append]
    cases hw : w.dropWhile (· = []) with
    | nil =>
      by_cases ha : a = []
      · simp [ha]
      · simp [ha]
        omega
    | cons b w' =>
      have hb : b ≠ [] := by
        have := List.head_dropWhile_not (· = []) (l := w) (by rw [hw]; exact List.cons_ne_nil _ _)
        simpa [hw] using this
      have hlen := List.length_pos_iff.mpr hb
      have hsum : 1 < (((b :: w').map (·.length + 1)).sum) := by
        simp only [List.map_cons, List.sum_cons]
        omega
      rw [List.isEmpty_cons, if_neg Bool.false_ne_true, List.map_append, List.sum_append]
      simp only [List.map_cons (l := []), List.map_nil, List.sum_singleton]
      rw [if_neg (by omega)]
      omega

theorem length_nextDir {args : List (List (BitVec 8))} {dir : List (BitVec 8)}
    (hslash : dir.head? = some slash) (hlen : dir.length = shown args) (a : List (BitVec 8)) :
    (nextDir dir a).length = shown (args ++ [a]) := by
  obtain ⟨d, rfl⟩ := List.head?_eq_some_iff.mp hslash
  have hone : slash :: d = [slash] ↔ shown args = 1 := by
    rw [← hlen]
    simp
  rw [shown_append, nextDir, apply_ite List.length, apply_ite List.length, ← hlen]
  refine if_congr Iff.rfl rfl (if_congr (by rw [hone, hlen]) ?_ ?_)
  · rw [List.length_cons, Nat.add_comm]
  · simp only [List.length_append, List.length_cons]
    omega

theorem head?_nextDir {dir : List (BitVec 8)} (hslash : dir.head? = some slash) (a : List (BitVec 8)) :
    (nextDir dir a).head? = some slash := by
  unfold nextDir
  split_ifs
  · rfl
  · rfl
  · rw [List.head?_append, hslash]
    rfl

theorem isSome_run_iff {args pre : List (List (BitVec 8))} (hslash : s.dir.head? = some slash)
    (hlen : s.dir.length = shown pre) (hlt : shown pre < CURRENT_DIR) :
    (run (cd N) s args).isSome ↔
      ∀ bs, bs <+: args → shown (pre ++ taken N s.cwd bs) < CURRENT_DIR := by
  induction args generalizing s pre with
  | nil =>
    refine iff_of_true rfl fun bs hbs => ?_
    rw [List.prefix_nil.mp hbs, taken, List.append_nil]
    exact hlt
  | cons a args ih =>
    have hsplit : (∀ bs, bs <+: a :: args → shown (pre ++ taken N s.cwd bs) < CURRENT_DIR) ↔
        ∀ bs, bs <+: args → shown (pre ++ taken N s.cwd (a :: bs)) < CURRENT_DIR := by
      refine ⟨fun h bs hbs => h _ (List.prefix_cons_inj a |>.mpr hbs), fun h bs hbs => ?_⟩
      rcases List.prefix_cons_iff.mp hbs with rfl | ⟨bs', rfl, hbs'⟩
      · rw [taken, List.append_nil]
        exact hlt
      · exact h bs' hbs'
    rw [run_cons, hsplit]
    cases hc : chdir N s.cwd a with
    | none =>
      have hcd : cd N s a = some s := by simp only [cd, hc]
      simp only [hcd, Option.bind_some, taken, hc]
      exact ih hslash hlen hlt
    | some cwd =>
      have hnext := length_nextDir hslash hlen a
      simp only [taken, hc]
      rw [cd_eq hc, hnext]
      by_cases hfit : shown (pre ++ [a]) < CURRENT_DIR
      · rw [if_pos hfit, Option.bind_some, ih (head?_nextDir hslash a) hnext hfit]
        simp only [List.append_assoc, List.singleton_append]
      · rw [if_neg hfit]
        exact iff_of_false Bool.false_ne_true fun h => hfit (h [] List.nil_prefix)

/-- For every tree and every sequence of `cd`s: `current_dir` is never overrun exactly if, at every
step, the arguments taken since the last `/` or `..` fit in it with their slashes and the terminator. -/
theorem prompt_fits_iff (N : ℕ → Node) (args : List (List (BitVec 8))) :
    (run (cd N) home args).isSome ↔
      ∀ bs, bs <+: args → shown (taken N ROOTINO bs) < CURRENT_DIR :=
  @isSome_run_iff N home args [] rfl rfl (by decide)

/-- The argument `.`, fifty times. -/
theorem dots_overflow : (run (cd tree) home (List.replicate 50 [46])).isSome = false := by
  decide +kernel

end DuckoUnix.Sh
