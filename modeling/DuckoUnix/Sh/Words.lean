import DuckoUnix.Sh.Accepts

/-!
# The words of the tree

The words of a tree are slices of one line, and `nulterminate` stores a NUL behind each. Every pair of
pointers in the tree comes from a call of `gettoken` that returned a word (`Taken`), so no store is
inside of another word.
-/

namespace DuckoUnix.Sh

open Lib

variable {s s₀ q eq : Ptr} {k : ℕ} {cmd : Cmd}

/-- Where the strings of a tree start and end. -/
def Cmd.words : Cmd → List (Ptr × Ptr)
  | .exec argv => argv
  | .redir cmd file efile _ _ => cmd.words ++ [(file, efile)]
  | .pipe left right => left.words ++ right.words
  | .list left right => left.words ++ right.words
  | .back cmd => cmd.words

/-- `gettoken` has returned a word of the line `s₀` with these as `*q` and `*eq`. -/
def Taken (s₀ : Ptr) (word : Ptr × Ptr) : Prop :=
  ∃ s ps, s <:+ s₀ ∧ gettoken s = ('a', word.1, word.2, ps)

/-- A tree of words that were taken from the line, and a place in the line. -/
def Good (s₀ : Ptr) (r : Cmd × Ptr) : Prop := r.2 <:+ s₀ ∧ ∀ word ∈ r.1.words, Taken s₀ word

/-- A parser returns nothing but such a tree and the place behind it. -/
def Sound (s₀ : Ptr) (r : Except Halt (Cmd × Ptr)) : Prop := ∀ p, r = .ok p → Good s₀ p

theorem Good.sound {r : Cmd × Ptr} (h : Good s₀ r) : Sound s₀ (.ok r) := by
  rintro _ ⟨⟩
  exact h

theorem sound_error (e : Halt) : Sound s₀ (.error e) := by
  rintro _ ⟨⟩

theorem Sound.bind {r : Except Halt (Cmd × Ptr)} {f : Cmd × Ptr → Except Halt (Cmd × Ptr)}
    (h : Sound s₀ r) (hf : ∀ p, Good s₀ p → Sound s₀ (f p)) : Sound s₀ (r >>= f) := by
  intro p hp
  obtain ⟨p', hr, hfp⟩ := bind_eq_ok.mp hp
  exact hf p' (h p' hr) p hfp

theorem peek_suffix (toks : List Char) (hs : s <:+ s₀) : (peek s toks).2 <:+ s₀ := by
  have hskip : (peek s toks).2 = skip s := by
    unfold peek
    split <;> simp_all
  rw [hskip]
  exact (skip_suffix s).trans hs

theorem gettoken_suffix (hs : s <:+ s₀) : (gettoken s).2.2.2 <:+ s₀ := by
  cases hn : next s with
  | none =>
    rw [gettoken_end hn]
    exact List.nil_suffix
  | some p =>
    obtain ⟨q, hg, hq, hr, -⟩ := gettoken_of_next hn
    rw [hg]
    exact (skip_suffix p.2).trans (hr.trans (hq.trans hs))

theorem taken_gettoken (hs : s <:+ s₀) (h : (gettoken s).1 = 'a') :
    Taken s₀ ((gettoken s).2.1, (gettoken s).2.2.1) :=
  ⟨s, (gettoken s).2.2.2, hs, by rw [← h]⟩

theorem Good.redir {r : Cmd × Ptr} (h : Good s₀ r) (hw : Taken s₀ (q, eq)) (hs : s <:+ s₀)
    (mode fd : ℕ) : Good s₀ (.redir r.1 q eq mode fd, s) := by
  refine ⟨hs, fun word hm => ?_⟩
  rcases List.mem_append.mp hm with hm | hm
  · exact h.2 word hm
  · rwa [List.mem_singleton.mp hm]

theorem parseredirs_sound (h : Good s₀ (cmd, s)) : Sound s₀ (parseredirs k cmd s) := by
  induction k generalizing cmd s with
  | zero => exact sound_error _
  | succ k ih =>
    have hs := peek_suffix ['<', '>'] h.1
    have hs₁ := gettoken_suffix hs
    have hs₂ := gettoken_suffix hs₁
    rw [parseredirs]
    dsimp only
    split_ifs with hmore ha
    · exact sound_error _
    · exact ih (h.redir (taken_gettoken hs₁ (not_not.mp ha)) hs₂ _ _)
    · exact ih (h.redir (taken_gettoken hs₁ (not_not.mp ha)) hs₂ _ _)
    · exact ih (h.redir (taken_gettoken hs₁ (not_not.mp ha)) hs₂ _ _)
    · exact ih ⟨hs₂, h.2⟩
    · exact Good.sound ⟨hs, h.2⟩

theorem mem_words_addArg {word : Ptr × Ptr} (h : word ∈ (cmd.addArg q eq).words) :
    word ∈ cmd.words ∨ word = (q, eq) := by
  induction cmd with
  | exec argv => simpa [Cmd.addArg, Cmd.words] using h
  | redir cmd file efile mode fd ih =>
    rcases List.mem_append.mp h with h | h
    · exact (ih h).imp_left (List.mem_append_left _)
    · exact .inl (List.mem_append_right _ h)
  | pipe | list | back => exact .inl h

theorem parseargs_sound {argc : ℕ} (h : Good s₀ (cmd, s)) : Sound s₀ (parseargs k cmd argc s) := by
  induction k generalizing cmd argc s with
  | zero => exact sound_error _
  | succ k ih =>
    have hs := peek_suffix ['|', ')', '&', ';'] h.1
    have hs₁ := gettoken_suffix hs
    rw [parseargs]
    dsimp only
    split_ifs with hstop hnul ha hmax
    · exact Good.sound ⟨hs, h.2⟩
    · exact Good.sound ⟨hs₁, h.2⟩
    · exact sound_error _
    · exact sound_error _
    · refine Sound.bind (parseredirs_sound ⟨hs₁, fun word hm => ?_⟩) fun p hp => ih hp
      rcases mem_words_addArg hm with hm | rfl
      · exact h.2 word hm
      · exact taken_gettoken hs (not_not.mp ha)

theorem parsebacks_sound (h : Good s₀ (cmd, s)) : Sound s₀ (parsebacks k cmd s) := by
  induction k generalizing cmd s with
  | zero => exact sound_error _
  | succ k ih =>
    have hs := peek_suffix ['&'] h.1
    rw [parsebacks]
    dsimp only
    split_ifs with hmore
    · exact ih ⟨gettoken_suffix hs, h.2⟩
    · exact Good.sound ⟨hs, h.2⟩

/-- Two commands side by side. -/
theorem Sound.pair {l : Cmd} {r : Except Halt (Cmd × Ptr)} {f : Cmd → Cmd}
    (hf : ∀ c, (f c).words = l.words ++ c.words) (hl : ∀ word ∈ l.words, Taken s₀ word)
    (hr : Sound s₀ r) : Sound s₀ (do let (rest, s) ← r; .ok (f rest, s)) := by
  refine hr.bind fun p hp => Good.sound ⟨hp.1, fun word hm => ?_⟩
  rw [hf, List.mem_append] at hm
  exact hm.elim (hl word) (hp.2 word)

theorem parsers_sound (k : ℕ) (hs : s <:+ s₀) : Sound s₀ (parseline k s) ∧
    Sound s₀ (parsepipe k s) ∧ Sound s₀ (parseblock k s) ∧ Sound s₀ (parseexec k s) := by
  induction k generalizing s with
  | zero => exact ⟨sound_error _, sound_error _, sound_error _, sound_error _⟩
  | succ k ih =>
    refine ⟨?_, ?_, ?_, ?_⟩
    · rw [parseline]
      refine (ih hs).2.1.bind fun p hp => (parsebacks_sound hp).bind fun p hp => ?_
      have hs := peek_suffix [';'] hp.1
      dsimp only
      split_ifs
      · exact Sound.pair (fun _ => rfl) hp.2 (ih (gettoken_suffix hs)).1
      · exact Good.sound ⟨hs, hp.2⟩
    · rw [parsepipe]
      refine (ih hs).2.2.2.bind fun p hp => ?_
      have hs := peek_suffix ['|'] hp.1
      dsimp only
      split_ifs
      · exact Sound.pair (fun _ => rfl) hp.2 (ih (gettoken_suffix hs)).2.1
      · exact Good.sound ⟨hs, hp.2⟩
    · rw [parseblock]
      dsimp only
      split_ifs
      · refine (ih (gettoken_suffix (peek_suffix ['('] hs))).1.bind fun p hp => ?_
        split_ifs
        · exact parseredirs_sound ⟨gettoken_suffix (peek_suffix [')'] hp.1), hp.2⟩
        · exact sound_error _
      · exact sound_error _
    · rw [parseexec]
      have hs := peek_suffix ['('] hs
      dsimp only
      split_ifs
      · exact (ih hs).2.2.1
      · exact (parseredirs_sound ⟨hs, by simp [Cmd.words]⟩).bind fun p hp => parseargs_sound hp

theorem parsecmd_sound {buf : ℕ → Char} (h : parsecmd k s = .ok (cmd, buf)) :
    buf = nulterminate s.length cmd (buffer s) ∧ ∀ word ∈ cmd.words, Taken s word := by
  rw [parsecmd, bind_eq_ok] at h
  obtain ⟨p, hp, h⟩ := h
  dsimp only at h
  split_ifs at h
  cases h
  exact ⟨rfl, ((parsers_sound k List.suffix_rfl).1 p hp).2⟩

/-! ## The strings -/

/-- The ends of the words of a tree. -/
def Cmd.ends : Cmd → List Ptr
  | .exec argv => argv.map Prod.snd
  | .redir cmd _ efile _ _ => cmd.ends ++ [efile]
  | .pipe left right => left.ends ++ right.ends
  | .list left right => left.ends ++ right.ends
  | .back cmd => cmd.ends

theorem Cmd.ends_eq (cmd : Cmd) : cmd.ends = cmd.words.map Prod.snd := by
  induction cmd with
  | exec argv => rfl
  | redir cmd q eq mode fd ih => simp [Cmd.ends, Cmd.words, ih]
  | pipe a b iha ihb | list a b iha ihb => simp [Cmd.ends, Cmd.words, iha, ihb]
  | back cmd ih => exact ih

theorem nulterminate_eq (n : ℕ) (cmd : Cmd) (buf : ℕ → Char) :
    nulterminate n cmd buf = cmd.ends.foldl (fun buf p => put n p buf) buf := by
  induction cmd generalizing buf with
  | exec argv => rw [nulterminate, Cmd.ends, List.foldl_map]
  | redir cmd q eq mode fd ih =>
    rw [nulterminate, Cmd.ends, List.foldl_append, ih]
    rfl
  | pipe a b iha ihb => rw [nulterminate, Cmd.ends, List.foldl_append, iha, ihb]
  | list a b iha ihb => rw [nulterminate, Cmd.ends, List.foldl_append, iha, ihb]
  | back cmd ih => rw [nulterminate, Cmd.ends, ih]

theorem foldl_put (n : ℕ) (ps : List Ptr) (buf : ℕ → Char) (i : ℕ) :
    ps.foldl (fun buf p => put n p buf) buf i =
      if ∃ p ∈ ps, i = n - p.length then NUL else buf i := by
  induction ps generalizing buf with
  | nil => simp
  | cons p ps ih =>
    rw [List.foldl_cons, ih]
    by_cases h : ∃ p ∈ ps, i = n - p.length
    · rw [if_pos h, if_pos (by
        obtain ⟨p', hp', e⟩ := h
        exact ⟨p', List.mem_cons_of_mem _ hp', e⟩)]
    · rw [if_neg h]
      by_cases e : i = n - p.length
      · rw [if_pos ⟨p, by simp, e⟩, put, e, Function.update_self]
      · rw [put, Function.update_of_ne e, if_neg]
        rintro ⟨p', hp', e'⟩
        rcases List.mem_cons.mp hp' with rfl | hp'
        · exact e e'
        · exact h ⟨p', hp', e'⟩

/-- The end of a word is not inside of one. -/
def IsEnd (s₀ p : Ptr) : Prop := p <:+ s₀ ∧ ∀ c ∈ p.head?, isWord c = false

theorem WordAt.isEnd {w : List Char} (h : WordAt s₀ q eq w) : IsEnd s₀ eq := by
  obtain ⟨hq, rfl, -, hhead⟩ := h
  exact ⟨(List.suffix_append w eq).trans hq, hhead⟩

theorem code_eq_word {t : Token} (h : t.code = 'a') : ∃ w, t = .word w := by
  cases t <;> simp [Token.code] at h
  exact ⟨_, rfl⟩

theorem Taken.wordAt (h : Taken s₀ (q, eq)) : ∃ w, WordAt s₀ q eq w := by
  obtain ⟨s, ps, hs, hg⟩ := h
  cases hn : next s with
  | none =>
    rw [gettoken_end hn] at hg
    cases hg
  | some p =>
    obtain ⟨t, r⟩ := p
    obtain ⟨q', hg', hq, -, hw⟩ := gettoken_of_next hn
    rw [hg'] at hg
    simp only [Prod.mk.injEq] at hg
    obtain ⟨ht, rfl, rfl, -⟩ := hg
    obtain ⟨w, rfl⟩ := code_eq_word ht
    exact ⟨w, hq.trans hs, hw w rfl⟩

theorem isEnd_of_taken (h : ∀ word ∈ cmd.words, Taken s₀ word) : ∀ p ∈ cmd.ends, IsEnd s₀ p := by
  rw [Cmd.ends_eq]
  intro p hp
  obtain ⟨word, hm, rfl⟩ := List.mem_map.mp hp
  obtain ⟨w, hw⟩ := (h word hm).wordAt
  exact hw.isEnd

theorem IsEnd.not_word {p : Ptr} {i : ℕ} {c : Char} (h : IsEnd s₀ p) (hi : i = s₀.length - p.length)
    (hc : s₀[i]? = some c) : isWord c = false := by
  obtain ⟨⟨v, rfl⟩, hhead⟩ := h
  have hlen : i = v.length := by simpa using hi
  refine hhead c ?_
  rw [hlen, List.getElem?_append_right le_rfl, Nat.sub_self] at hc
  rwa [List.head?_eq_getElem?]

/-- `nulterminate` ends the words of the tree, and leaves what is in them. -/
theorem cstr_nulterminate {w : List Char} (hnul : NUL ∉ s₀) (hends : ∀ p ∈ cmd.ends, IsEnd s₀ p)
    (heq : eq ∈ cmd.ends) (hw : WordAt s₀ q eq w) :
    cstr s₀.length (nulterminate s₀.length cmd (buffer s₀)) q = w := by
  set buf := nulterminate s₀.length cmd (buffer s₀) with hbuf
  obtain ⟨⟨u, hu⟩, rfl, hword, -⟩ := hw
  have hstart : s₀.length - (w ++ eq).length = u.length := by simp [← hu]
  -- the characters of the word are not overwritten
  have hin : ∀ i (hi : i < w.length), buf (u.length + i) = w[i] := by
    intro i hi
    have hget : s₀[u.length + i]? = some w[i] := by
      rw [← hu, List.getElem?_append_right (by omega), Nat.add_sub_cancel_left,
        List.getElem?_append_left hi, List.getElem?_eq_getElem hi]
    rw [hbuf, nulterminate_eq, foldl_put, if_neg]
    · rw [buffer, List.getD_eq_getElem?_getD, hget]
      rfl
    · rintro ⟨p, hp, e⟩
      have := (hends p hp).not_word e hget
      rw [hword _ (List.getElem_mem hi)] at this
      cases this
  have hfirst : (List.range w.length).map (fun i => buf (u.length + i)) = w := by
    refine List.ext_getElem (by simp) fun i h₁ h₂ => ?_
    simp [hin i h₂]
  have hlast : ((List.range eq.length).map fun i => buf (u.length + (w.length + i))).takeWhile
      (· ≠ NUL) = [] := by
    cases hl : eq with
    | nil => rfl
    | cons c l =>
      have hat : buf (u.length + (w.length + 0)) = NUL := by
        rw [hbuf, nulterminate_eq, foldl_put, if_pos]
        refine ⟨eq, heq, ?_⟩
        simp [← hu]
        omega
      rw [List.length_cons, List.range_succ_eq_map, List.map_cons, hat]
      simp
  have hne : ∀ c ∈ w, decide (c ≠ NUL) = true := by
    intro c hc
    have : c ∈ s₀ := by simp [← hu, hc]
    simpa using fun e : c = NUL => hnul (e ▸ this)
  rw [cstr, hstart, List.length_append, List.range_add, List.map_append, hfirst, List.map_map]
  rw [List.takeWhile_append_of_pos hne]
  simpa [Function.comp_def] using hlast

/-- For every line on which `parsecmd` returns, and for every string of the tree: `gettoken` has taken
it from the line, and once the NULs are stored it reads as what was between the two pointers then. -/
theorem parsecmd_reads_words (s : Ptr) (hnul : NUL ∉ s) (fuel : ℕ) (cmd : Cmd) (buf : ℕ → Char)
    (h : parsecmd fuel s = .ok (cmd, buf)) (q eq : Ptr) (hm : (q, eq) ∈ cmd.words) :
    Taken s (q, eq) ∧ ∃ w, q = w ++ eq ∧ cstr s.length buf q = w := by
  obtain ⟨rfl, htaken⟩ := parsecmd_sound h
  obtain ⟨w, hw⟩ := (htaken _ hm).wordAt
  refine ⟨htaken _ hm, w, hw.2.1, cstr_nulterminate hnul (isEnd_of_taken htaken) ?_ hw⟩
  rw [Cmd.ends_eq]
  exact List.mem_map_of_mem hm

/-- The NUL behind the argument of `a>x` is stored over the `>`. -/
theorem parsecmd_reads_words_touching :
    ∃ cmd buf, parsecmd 9 ['a', '>', 'x'] = .ok (cmd, buf) ∧
      (['a', '>', 'x'], ['>', 'x']) ∈ cmd.words ∧ cstr 3 buf ['a', '>', 'x'] = ['a'] := by
  refine ⟨_, _, rfl, List.mem_cons_self, ?_⟩
  obtain ⟨-, w, hq, hread⟩ := parsecmd_reads_words ['a', '>', 'x'] (by decide) 9 _ _ rfl
    ['a', '>', 'x'] ['>', 'x'] List.mem_cons_self
  have hw : ['a'] = w := (List.append_left_inj ['>', 'x']).mp hq
  rw [hw]
  exact hread

end DuckoUnix.Sh
