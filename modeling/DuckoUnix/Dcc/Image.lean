import DuckoUnix.Dcc.Meaning
import DuckoUnix.Exec.Image
import DuckoUnix.Fs.Files

/-!
# The output of dcc and exec

dcc writes the header and the code to a file that may have been there before and that `open` does not
truncate, so old bytes may stand behind the code. `exec` loads the header and the code and nothing
else.
-/

namespace DuckoUnix.Dcc

open Lib Vm Exec

variable {L : Layout} {E : Vm.Fault → Prop} {s s' : Mem} {d : Frame} {f : File} {code old : Str}
  {sz v w : ℕ}

/-! ## The file -/

/-- The contents of the output file after `write_elf_header` and the `write` of the code, if it held
`old` before. -/
def written (old code : Str) : Str := Fs.patch (Fs.patch old 0 (elfHeader code.length)) 84 code

theorem written_eq (old code : Str) :
    written old code = elfHeader code.length ++ code ++ old.drop (84 + code.length) := by
  have hlen : (elfHeader code.length).length = 84 := rfl
  unfold written Fs.patch
  rw [List.take_zero, List.nil_append, Nat.zero_add, hlen, List.take_left' hlen, List.drop_append, hlen,
    List.drop_eq_nil_of_le (by omega), List.nil_append, List.drop_drop]
  congr 2
  omega

theorem begins_written (old code : Str) :
    Begins (fileOf (written old code)) (elfHeader code.length ++ code) := by
  rw [written_eq]
  constructor
  · show _ ≤ (_ ++ old.drop _).length
    exact (List.prefix_append _ _).length_le
  · intro i hi
    exact List.getD_append _ _ _ _ hi

theorem written_length (old code : Str) :
    (fileOf (written old code)).size = max old.length (84 + code.length) := by
  show (written old code).length = _
  rw [written_eq, List.length_append, compiled_length, List.length_drop]
  omega

theorem Begins.wellFormed (h : Begins f (elfHeader code.length ++ code)) (hlen : code.length ≤ 512) :
    WellFormed f := by
  have hsize := h.size
  rw [compiled_length] at hsize
  refine ⟨_, h.readElfhdr, rfl, fun i hi => ?_⟩
  obtain rfl : i = 0 := by
    change i < 1 at hi
    omega
  refine ⟨_, h.readProghdr hlen, fun _ => ⟨Nat.le_refl _, ?_, rfl, fun _ => ?_⟩⟩
  · unfold KERNBASE
    dsimp only
    omega
  · dsimp only
    omega

theorem Begins.loadHdrs (h : Begins f (elfHeader code.length ++ code)) (hlen : code.length ≤ 512) :
    loadHdrs f 1 52 = [⟨ELF_PROG_LOAD, 0, 0, 84 + code.length, 84 + code.length⟩] := by
  rw [loadHdrs_succ (h.readProghdr hlen), if_pos rfl]
  rfl

/-! ## Memory -/

theorem Adds.length_le (h : Adds d v w s s') :
    s.freelist.length ≤ s'.freelist.length + 512 + (w - v) := by
  have hcard := congrArg Multiset.card h.moves.total
  have htabs := card_collect_le (n := NPDENTRIES) (S := Finset.range 512) fun i hi =>
    (h.tab i hi).imp id Finset.mem_range.mpr
  have hpages : (pages s'.mem d).card ≤ (pages s.mem d).card + (Finset.Ico v w).card := by
    unfold pages
    rw [card_collect, card_collect]
    refine (Finset.card_le_card fun x hx => ?_).trans (Finset.card_union_le _ (Finset.Ico v w))
    obtain ⟨hx, hsome⟩ := Finset.mem_filter.mp hx
    by_cases hin : v ≤ x ∧ x < w
    · exact Finset.mem_union_right _ (Finset.mem_Ico.mpr hin)
    · rw [h.old x (user_lt (Finset.mem_range.mp hx)) hin] at hsome
      exact Finset.mem_union_left _ (Finset.mem_filter.mpr ⟨hx, hsome⟩)
  unfold vm tables at hcard
  simp only [Multiset.card_add, Multiset.card_singleton, Multiset.coe_card] at hcard
  rw [Finset.card_range] at htabs
  rw [Nat.card_Ico] at hpages
  omega

theorem loaduvm_full {n : ℕ} {e : BitVec 32} (hn : n < 4096) (he : entry s.mem d 0 = some e)
    (hread : Exec.readi f 0 n = some n) :
    wp E (loaduvm d 0 f 0 n) (fun r s' => r = true ∧ s'.freelist = s.freelist ∧ s'.fails = s.fails) s := by
  have hfuel : n / PGSIZE = 0 := Nat.div_eq_of_lt hn
  have hva : 0 < UINT := by decide
  obtain ⟨t, ht, hpte⟩ := walk_present hva rfl he
  unfold loaduvm
  rw [if_neg (by decide), hfuel]
  unfold loadLoop
  refine wp_ite (fun _ => ?_) fun _ => ⟨rfl, rfl, rfl⟩
  have hzero : (0 + 0) % UINT = 0 := rfl
  rw [hzero, wp_bind, wp_walkpgdir_false, ht, Option.map_some, wp_bind, wp_load]
  dsimp only
  rw [Nat.sub_zero, if_pos (show n < PGSIZE from hn), wp_bind, wp_modify, hread, if_pos rfl]
  exact ⟨rfl, rfl, rfl⟩

theorem Begins.segments_complete (h : Begins f (elfHeader code.length ++ code))
    (hlen : code.length ≤ 512) (hloaded : Loaded L d 0 s) :
    wp E (loadSegments L f d 1 52 0) (fun r s' => s.fails = [] → 2 < s.freelist.length →
      r = some (84 + code.length) ∧ s'.fails = [] ∧
        s.freelist.length ≤ s'.freelist.length + 513) s := by
  have hlt : 84 + code.length < KERNBASE := by
    unfold KERNBASE
    omega
  have hmod : (0 + (84 + code.length)) % UINT = 84 + code.length := by
    unfold UINT
    omega
  have hpgs : pgs (84 + code.length) = 1 := by
    unfold pgs
    omega
  unfold loadSegments
  rw [h.readProghdr hlen]
  dsimp only
  rw [if_neg (not_not.mpr rfl), if_neg (Nat.lt_irrefl _), hmod, if_neg (Nat.not_lt_zero _), wp_bind]
  refine wp_mono (allocuvm_spec hloaded.own (Nat.zero_le _) hloaded.below) ?_
  rintro r s₁ (⟨-, rfl, hadds⟩ | ⟨rfl, -, hshort⟩)
  · rw [Nat.zero_max, if_neg (by omega), if_neg (by decide), wp_bind]
    have hpages := Adds.length_le hadds
    rw [hpgs] at hadds hpages
    obtain ⟨e, he⟩ := hadds.new 0 (by decide) (Nat.zero_le _) Nat.one_pos
    refine wp_mono (loaduvm_full (by omega) he (h.readi (by omega) (by unfold UINT; omega))) ?_
    rintro _ s₂ ⟨rfl, hsame, hfails⟩
    rw [if_pos rfl]
    intro hf _
    refine ⟨rfl, hfails.trans (hadds.fails hf), ?_⟩
    rw [hsame]
    omega
  · intro hf hfree
    have hle := hshort hlt hf
    rw [hpgs] at hle
    omega

/-! ## Loading -/

/-- The program headers: with memory the size is that of the headers and the code, and the code is
behind the headers. -/
theorem Begins.segments_wp (h : Begins f (elfHeader code.length ++ code)) (hlen : code.length ≤ 512)
    (hsize : f.size < UINT) (hloaded : Loaded L d 0 s) :
    wp E (loadSegments L f d 1 52 0) (fun r s' => Changes d s s' ∧ ∀ sz, r = some sz →
      Loaded L d sz s' ∧ sz = 84 + code.length ∧
        ∀ i < code.length, byteAt s'.mem d (84 + i) = some (code.getD i 0)) s := by
  refine wp_mono (loadSegments_spec hloaded) ?_
  rintro r s' ⟨hch, hdone⟩
  refine ⟨hch, fun sz hr => ?_⟩
  obtain ⟨hloaded', himage⟩ := hdone sz hr
  obtain ⟨-, hsz, hcontains⟩ := himage hsize
  rw [h.loadHdrs hlen] at hsz hcontains
  have hsz' : sz = 84 + code.length := by
    rw [hsz]
    show max 0 (0 + (84 + code.length)) = _
    omega
  have hzero : Contains d 0 (fun _ => 0) s :=
    ⟨fun a ha => absurd ha (Nat.not_lt_zero a), fun _ _ => rfl⟩
  refine ⟨hloaded', hsz', fun i hi => ?_⟩
  have hbyte := (hcontains _ hzero).bytes (84 + i) (by unfold pgs; omega)
  rw [hbyte, List.foldl_cons, List.foldl_nil]
  unfold overlay
  dsimp only
  rw [if_pos (by omega), Nat.zero_add, Nat.sub_zero, h.data _ (by rw [compiled_length]; omega),
    List.getD_append_right _ _ _ _ (Nat.le_add_right 84 i)]
  exact congrArg (fun k => some (code.getD k 0)) (Nat.add_sub_cancel_left 84 i)

theorem Begins.image_wp (h : Begins f (elfHeader code.length ++ code)) (hlen : code.length ≤ 512)
    (hsize : f.size < UINT) (hown : Own L s 0) :
    wp E (loadImage L f) (fun r s' => (s.fails = [] → 584 ≤ s.freelist.length → r.isSome) ∧
      ∀ im, r = some im → im.entry = 0x54 ∧
        ∀ i < code.length, byteAt s'.mem im.pgdir (0x54 + i) = some (code.getD i 0)) s := by
  unfold loadImage
  rw [h.readElfhdr]
  dsimp only
  rw [if_neg (not_not.mpr rfl), wp_bind]
  refine wp_mono (setupkvm_spec hown) fun r s₁ hset => ?_
  match r with
  | none =>
    refine ⟨fun hf hfree => ?_, nofun⟩
    have := (hset.failed rfl).2 hf
    omega
  | some d =>
    have hloaded := loaded_new hown hset
    have hlength := hset.length d rfl
    dsimp only
    rw [wp_bind]
    refine wp_mono (wp_and (h.segments_wp hlen hsize hloaded) (h.segments_complete hlen hloaded)) ?_
    rintro r s₂ ⟨⟨hch, hdone⟩, hroom⟩
    match r with
    | none =>
      refine wp_mono (bad_spec (hloaded.own.moves' hch.moves)) ?_
      rintro _ s₃ ⟨rfl, -⟩
      refine ⟨fun hf hfree => ?_, nofun⟩
      cases (hroom (hset.fails hf) (by omega)).1
    | some sz =>
      obtain ⟨hloaded₂, rfl, hcode⟩ := hdone sz rfl
      refine wp_mono (stackPages_spec hloaded₂) ?_
      rintro r s₃ ⟨-, hpages, hkeep⟩
      refine ⟨fun hf hfree => ?_, fun im him => ?_⟩
      · obtain ⟨-, hfails, hleft⟩ := hroom (hset.fails hf) (by omega)
        obtain ⟨im, rfl, -⟩ := hpages (by unfold KERNBASE; omega) hfails (by omega)
        rfl
      · obtain ⟨hdir, hentry, hbytes⟩ := hkeep im him
        refine ⟨hentry, fun i hi => ?_⟩
        rw [hdir, hbytes _ (by unfold pgs; omega)]
        exact hcode i hi

/-- For all code that fits into the buffer, whatever the output file held before: the file passes the
checks of `exec`, the size before the stack pages is that of the headers and the code, and the program
starts at 0x54, where its code is; with enough memory it is loaded. -/
theorem dcc_image_loads {code old : Str} (hcode : code.length ≤ 512) (hold : old.length < UINT) :
    WellFormed (fileOf (written old code)) ∧
    (∀ L s d s₁, Own L s 0 → setupkvm L s = .ok (some d, s₁) → ∃ elf r s',
      readElfhdr (fileOf (written old code)) = some elf ∧
      loadSegments L (fileOf (written old code)) d elf.phnum elf.phoff 0 s₁ = .ok (r, s') ∧
      ∀ sz, r = some sz → sz = 84 + code.length) ∧
    ∀ L s, Own L s 0 → ∃ r s', loadImage L (fileOf (written old code)) s = .ok (r, s') ∧
      (s.fails = [] → 584 ≤ s.freelist.length → r.isSome) ∧
      ∀ im, r = some im → im.entry = 0x54 ∧
        ∀ i < code.length, byteAt s'.mem im.pgdir (0x54 + i) = some (code.getD i 0) := by
  have h := begins_written old code
  have hsize : (fileOf (written old code)).size < UINT := by
    rw [written_length]
    unfold UINT at hold ⊢
    omega
  generalize fileOf (written old code) = f at h hsize ⊢
  refine ⟨h.wellFormed hcode, fun L s d s₁ hown hset => ?_, fun L s hown => ?_⟩
  · have hloaded := loaded_new hown (wp_ok (setupkvm_spec (E := fun _ => False) hown) hset)
    have hspec : wp (fun _ => False) _ _ s₁ := h.segments_wp hcode hsize hloaded
    obtain ⟨r, s', hs', -, hdone⟩ := wp_returns hspec
    exact ⟨⟨ELF_MAGIC, 84, 52, 1⟩, r, s', h.readElfhdr, hs', fun sz hr => (hdone sz hr).2.1⟩
  · have hspec : wp (fun _ => False) _ _ s := h.image_wp hcode hsize hown
    exact wp_returns hspec

def plenty : Mem := { freshMem with freelist := framesFrom 4096 600 }

theorem plenty_freelist : plenty.freelist = framesFrom 4096 600 := by rw [plenty]

theorem plenty_own : Own smallKernel plenty 0 := by
  refine ⟨?_, fun f hf => ?_⟩
  · rw [add_zero, plenty_freelist]
    exact framesFrom_nodup (by decide)
  · rw [add_zero, plenty_freelist] at hf
    obtain ⟨hlo, hhi⟩ := mem_framesFrom (by decide) hf
    exact smallKernel_valid hlo (by omega)

/-- A program that leaves at once, in a file that was longer before. -/
theorem dcc_image_loads_exit : ∃ im s',
    loadImage smallKernel (fileOf (written (List.replicate 100 1) (callCode 2))) plenty =
      .ok (some im, s') ∧ im.entry = 0x54 := by
  have hold : (List.replicate 100 (1 : BitVec 8)).length < UINT := by decide
  have hcode : (callCode 2).length ≤ 512 := by decide
  obtain ⟨-, -, hload⟩ := dcc_image_loads hcode hold
  obtain ⟨r, s', hs', hsome, hr⟩ := hload smallKernel plenty plenty_own
  have hfree : 584 ≤ plenty.freelist.length := by
    rw [plenty_freelist, framesFrom_length]
    decide
  obtain ⟨im, rfl⟩ := Option.isSome_iff_exists.mp (hsome rfl hfree)
  exact ⟨im, s', hs', (hr im rfl).1⟩

end DuckoUnix.Dcc
