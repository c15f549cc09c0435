import DuckoUnix.Exec.Args
import DuckoUnix.Lib.Except

/-!
# The stack of a new program

When `exec` succeeds, the new program finds its arguments on the stack page (`ArgStack`), above a
page that it may not touch and its own image.
-/

namespace DuckoUnix.Exec

open Lib Vm

variable {L : Layout} {s s' : Mem} {d : Frame} {sp : ℕ} {ip : File} {argv : List Str}

/-! ## A run of exec -/

theorem exec_eq {im : Image} {old : Frame} {r : Option (Image × ℕ)} {s₁ s₂ : Mem}
    (hload : loadImage L ip s = .ok (some im, s₁))
    (hpush : pushArgs im.pgdir im.sz argv s₁ = .ok (some sp, s₂))
    (hexec : exec L (some ip) argv old s = .ok (r, s')) : r = some (im, sp) := by
  have hrun : exec L (some ip) argv old s =
      (freevm L (some old) s₂).bind fun p => .ok (some (im, sp), p.2) := by
    show (loadImage L ip s).bind _ = _
    rw [hload]
    show (pushArgs im.pgdir im.sz argv s₁).bind _ = _
    rw [hpush]
    rfl
  rw [hrun] at hexec
  obtain ⟨p, -, hp⟩ := bind_eq_ok.mp hexec
  cases hp
  rfl

theorem pushArgs_letter (h : Ready L d 8192 s) :
    wp (fun _ => False) (pushArgs d 8192 [[0x61]]) (fun r _ => r.isSome) s := by
  unfold pushArgs pushLoop
  rw [wp_bind, if_neg (by decide), wp_bind]
  refine wp_mono (push_spec h (by decide) (by decide) (by decide)) ?_
  rintro r s₁ ⟨honly, hr, -⟩
  rw [if_pos (hr.mpr (by decide))]
  show wp _ (copyout d _ _ >>= _) _ s₁
  rw [wp_bind]
  refine wp_mono (copyout_spec (h.fills (honly.fills h.kern)) (by decide)) ?_
  rintro r s₂ ⟨-, -, hstack, -⟩
  rw [hstack (by decide), if_pos rfl]
  exact rfl

/-- A process with one page and eighty free pages. -/
def ample : Mem := { onePage with freelist := framesFrom 4099 80 }

theorem ample_own : Own smallKernel ample (vm ample.mem 0x1000) := by
  have hvm : vm ample.mem 0x1000 = {0x1000} + {0x1001} + {0x1002} := onePage_vm
  have hpages : ∀ f ∈ vm ample.mem 0x1000, 4096 ≤ f.toNat ∧ f.toNat < 4099 := fun f hf => by
    rw [hvm] at hf
    have hcases : f = 0x1000 ∨ f = 0x1001 ∨ f = 0x1002 := by simpa using hf
    rcases hcases with rfl | rfl | rfl <;> decide
  have hfree : ∀ f ∈ framesFrom 4099 80, 4099 ≤ f.toNat ∧ f.toNat < 4179 := fun f hf =>
    mem_framesFrom (by omega) hf
  refine ⟨Multiset.nodup_add.mpr ⟨framesFrom_nodup (by omega), ?_, ?_⟩, fun f hf => ?_⟩
  · rw [hvm]
    decide
  · refine Multiset.disjoint_left.mpr fun {f} hf hf' => ?_
    have := hfree f hf
    have := hpages f hf'
    omega
  · rcases Multiset.mem_add.mp hf with hf | hf
    · have := hfree f hf
      exact smallKernel_valid (by omega) (by omega)
    · have := hpages f hf
      exact smallKernel_valid (by omega) (by omega)

theorem letter_not_wraps {sz : ℕ} (h : sz < KERNBASE) : ¬ Wraps sz sz [[0x61]] := by
  rintro (⟨hlo, hhi⟩ | ⟨-, -, hfalse⟩)
  · unfold nextSp KERNBASE PHYSTOP UINT at *
    unfold DEVSPACE at hhi
    simp only [List.length_cons, List.length_nil] at hlo hhi
    omega
  · exact hfalse

/-! ## The stack -/

/-- Whenever `exec` succeeds, `main` finds its arguments on the stack, the stack page is the user's
and the page below it is not, and the program below is as it was loaded. -/
theorem exec_builds_stack {im : Image} {esp : ℕ} {old : Frame} (h : Own L s (vm s.mem old))
    (hargc : argv.length < MAXARG) (hargs : ∀ a ∈ argv, a.length < KERNBASE)
    (hexec : exec L (some ip) argv old s = .ok (some (im, esp), s')) :
    ∃ s₁ ptrs, loadImage L ip s = .ok (some im, s₁) ∧
      ArgStack im.pgdir im.sz argv esp ptrs s₁ s' ∧
      (∃ e, entry s'.mem im.pgdir (im.sz / 4096 - 1) = some e ∧ user e = true) ∧
      ∃ e, entry s'.mem im.pgdir (im.sz / 4096 - 2) = some e ∧ user e = false := by
  have hspec : wp (fun _ => True) (exec L (some ip) argv old) _ s :=
    exec_spec h hargc hargs fun _ _ _ => trivial
  obtain ⟨-, hready, file, s₁, ptrs, hfile, hload, hstack⟩ := wp_ok hspec hexec
  obtain rfl : ip = file := Option.some.inj hfile
  have hroom := hready.room
  have hpage : ∀ k, 0 < k → k ≤ 2 → im.sz / 4096 - k < pgs im.sz := fun k h1 h2 => by
    unfold pgs
    omega
  obtain ⟨e₁, he₁⟩ := Option.isSome_iff_exists.mp
    ((hready.pages _).mpr (hpage 1 (by omega) (by omega))).2
  obtain ⟨e₂, he₂⟩ := Option.isSome_iff_exists.mp
    ((hready.pages _).mpr (hpage 2 (by omega) (by omega))).2
  exact ⟨s₁, ptrs, hload, hstack, ⟨e₁, he₁, hready.stack e₁ he₁⟩, e₂, he₂, hready.guard e₂ he₂⟩

/-- `exec` of the program with a one-letter argument. -/
theorem exec_builds_stack_letter : ∃ im esp s',
    exec smallKernel (some emptyElf) [[0x61]] 0x1000 ample = .ok (some (im, esp), s') ∧
    ∃ s₁ ptrs, loadImage smallKernel emptyElf ample = .ok (some im, s₁) ∧
      ArgStack im.pgdir im.sz [[0x61]] esp ptrs s₁ s' ∧
      (∃ e, entry s'.mem im.pgdir (im.sz / 4096 - 1) = some e ∧ user e = true) ∧
      ∃ e, entry s'.mem im.pgdir (im.sz / 4096 - 2) = some e ∧ user e = false := by
  have hown := ample_own
  have hargs : ∀ a ∈ [([0x61] : Str)], a.length < KERNBASE := by decide
  have hown0 : Own smallKernel ample 0 := by
    rw [← zero_add (vm ample.mem 0x1000)] at hown
    exact hown.left
  obtain ⟨r, s₁, hload, hmakes, im, rfl, hsz⟩ := wp_returns (loadImage_empty hown0
    (rfl : readElfhdr emptyElf = some ⟨ELF_MAGIC, 0, 0, 0⟩) rfl rfl rfl
    (by rw [ample, framesFrom_length]; omega))
  have hready := hmakes.ready im rfl
  have hpush := pushArgs_letter (hsz ▸ hready)
  obtain ⟨r, s₂, hpush, hsome⟩ := wp_returns hpush
  obtain ⟨sp, rfl⟩ := Option.isSome_iff_exists.mp hsome
  rw [← hsz] at hpush
  have hspec : wp (fun _ => False) (exec smallKernel (some emptyElf) [[0x61]] 0x1000) _ ample :=
    exec_spec hown (by decide) hargs fun sz hlt hw => letter_not_wraps hlt hw
  obtain ⟨r, s', hexec, -⟩ := wp_returns hspec
  obtain rfl := exec_eq hload hpush hexec
  exact ⟨im, sp, s', hexec, exec_builds_stack hown (by decide) hargs hexec⟩

end DuckoUnix.Exec
