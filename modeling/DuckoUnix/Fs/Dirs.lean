import DuckoUnix.Fs.Files
import DuckoUnix.Fs.Names

/-!
# Directories

The contents of a directory are entries of 16 bytes. An entry whose inode number is 0 is empty. Here
a directory is looked at as a map from names to inode numbers: `lookup` finds the first entry with a
name, and writing an entry changes the map at one name only.
-/

namespace DuckoUnix.Fs

variable {d bs : List (BitVec 8)} {name name' : List (BitVec 8)} {j k : ℕ} {de : Dirent}

/-! ## Entries -/

def nent (d : List (BitVec 8)) : ℕ := d.length / DIRENT

def dirent (d : List (BitVec 8)) (k : ℕ) : Dirent := getDirent ((d.drop (k * DIRENT)).take DIRENT)

/-- The entry is in use and has this name. -/
def Dirent.Is (de : Dirent) (name : List (BitVec 8)) : Prop :=
  de.inum ≠ 0 ∧ namecmp name de.name = 0

instance (de : Dirent) (name : List (BitVec 8)) : Decidable (de.Is name) :=
  inferInstanceAs (Decidable (_ ∧ _))

/-- The place of the first entry with a name. -/
def find (d name : List (BitVec 8)) : Option ℕ :=
  (List.range (nent d)).find? fun k => (dirent d k).Is name

def lookup (d name : List (BitVec 8)) : Option ℕ :=
  (find d name).map fun k => (dirent d k).inum.toNat

theorem find_eq_some : find d name = some k ↔
    k < nent d ∧ (dirent d k).Is name ∧ ∀ j < k, ¬ (dirent d j).Is name := by
  unfold find
  rw [List.find?_range_eq_some]
  simp only [decide_eq_true_eq, List.mem_range, Bool.not_eq_true', decide_eq_false_iff_not]
  tauto

theorem find_eq_none : find d name = none ↔ ∀ k < nent d, ¬ (dirent d k).Is name := by
  unfold find
  rw [List.find?_range_eq_none]
  simp only [Bool.not_eq_true', decide_eq_false_iff_not]

theorem Dirent.is_congr (h : nameOf name = nameOf name') : de.Is name ↔ de.Is name' := by
  unfold Dirent.Is
  rw [namecmp_eq_zero, namecmp_eq_zero, h]

theorem lookup_eq_none : lookup d name = none ↔ find d name = none := Option.map_eq_none_iff

/-- The entries in use have different names. -/
def DistinctNames (d : List (BitVec 8)) : Prop :=
  ∀ j < nent d, ∀ k < nent d, (dirent d j).inum ≠ 0 → (dirent d k).inum ≠ 0 →
    nameOf (dirent d j).name = nameOf (dirent d k).name → j = k

/-! ## Writing an entry -/

theorem getElem?_patch {bs src : List (BitVec 8)} {off o : ℕ} (hoff : off ≤ bs.length) :
    (patch bs off src)[o]? = if off ≤ o ∧ o < off + src.length then src[o - off]? else bs[o]? := by
  have hlen : (bs.take off).length = off := by
    rw [List.length_take]
    omega
  unfold patch
  by_cases h₁ : o < off
  · rw [if_neg fun h => by omega, List.append_assoc, List.getElem?_append_left (by omega),
      List.getElem?_take, if_pos h₁]
  · by_cases h₂ : o < off + src.length
    · rw [if_pos ⟨by omega, h₂⟩, List.getElem?_append_left (by rw [List.length_append]; omega),
        List.getElem?_append_right (by omega), hlen]
    · rw [if_neg fun h => h₂ h.2, List.getElem?_append_right (by rw [List.length_append]; omega),
        List.getElem?_drop, List.length_append, hlen]
      congr 1
      omega

theorem nent_patch (hw : DIRENT ∣ d.length) (hk : k ≤ nent d) (hbs : bs.length = DIRENT) :
    nent (patch d (k * DIRENT) bs) = max (nent d) (k + 1) := by
  obtain ⟨m, hm⟩ := hw
  unfold nent DIRENT at *
  rw [length_patch bs (by omega), hbs]
  omega

theorem dirent_patch (hk : k ≤ nent d) (hbs : bs.length = DIRENT) (j : ℕ) :
    dirent (patch d (k * DIRENT) bs) j = if j = k then getDirent bs else dirent d j := by
  have hoff : k * DIRENT ≤ d.length := by
    unfold nent DIRENT at *
    omega
  have hslice : ((patch d (k * DIRENT) bs).drop (j * DIRENT)).take DIRENT =
      if j = k then bs else (d.drop (j * DIRENT)).take DIRENT := by
    refine List.ext_getElem? fun m => ?_
    rw [List.getElem?_take, List.getElem?_drop, getElem?_patch hoff, hbs]
    unfold DIRENT at *
    by_cases hj : j = k
    · subst hj
      rw [if_pos rfl]
      by_cases hm : m < 16
      · rw [if_pos hm, if_pos ⟨by omega, by omega⟩]
        congr 1
        omega
      · rw [if_neg hm, List.getElem?_eq_none (by omega)]
    · rw [if_neg hj, List.getElem?_take, List.getElem?_drop]
      by_cases hm : m < 16
      · rw [if_pos hm, if_pos hm, if_neg fun h => hj (by omega)]
      · rw [if_neg hm, if_neg hm]
  unfold dirent
  rw [hslice]
  split_ifs
  · rfl
  · rfl

/-- A place for a new entry: the first that is empty, or the end. -/
def Vacant (d : List (BitVec 8)) (k : ℕ) : Prop :=
  k ≤ nent d ∧ (k < nent d → (dirent d k).inum = 0)

/-- A new entry binds its name. -/
theorem lookup_link (hw : DIRENT ∣ d.length) (hk : Vacant d k) (hnone : find d name = none)
    (hinum : de.inum ≠ 0) (hname : nameOf de.name = nameOf name) (hlen : de.name.length = DIRSIZ)
    (name' : List (BitVec 8)) : lookup (patch d (k * DIRENT) de.bytes) name' =
      if nameOf name' = nameOf name then some de.inum.toNat else lookup d name' := by
  have hbs : de.bytes.length = DIRENT := by
    unfold Dirent.bytes
    rw [List.length_append, hlen]
    rfl
  have hent := dirent_patch hk.1 hbs
  have hn := nent_patch hw hk.1 hbs
  rw [getDirent_bytes] at hent
  generalize patch d (k * DIRENT) de.bytes = d' at hent hn ⊢
  rw [find_eq_none] at hnone
  have hself : dirent d' k = de := by rw [hent, if_pos rfl]
  by_cases e : nameOf name' = nameOf name
  · have hfind : find d' name' = some k := by
      rw [find_eq_some]
      refine ⟨by omega, ?_, fun j hj => ?_⟩
      · rw [hself]
        exact ⟨hinum, namecmp_eq_zero.mpr (e.trans hname.symm)⟩
      · rw [hent, if_neg (Nat.ne_of_lt hj), Dirent.is_congr e]
        exact hnone j (by have := hk.1; omega)
    unfold lookup
    rw [if_pos e, hfind, Option.map_some, hself]
  · rw [if_neg e]
    have hnot : ¬ de.Is name' := fun h => e ((namecmp_eq_zero.mp h.2).trans hname)
    have hvacant : k < nent d → ¬ (dirent d k).Is name' := fun h h' => h'.1 (hk.2 h)
    have hfind : find d' name' = find d name' := by
      cases hf : find d name' with
      | none =>
        rw [find_eq_none] at hf ⊢
        intro j hj
        rw [hent]
        split_ifs with hjk
        · exact hnot
        · exact hf j (by have := hk.1; omega)
      | some m =>
        rw [find_eq_some] at hf ⊢
        obtain ⟨hm, his, hfirst⟩ := hf
        have hmk : m ≠ k := fun h => hvacant (h ▸ hm) (h ▸ his)
        refine ⟨by omega, by rwa [hent, if_neg hmk], fun j hj => ?_⟩
        rw [hent]
        split_ifs
        · exact hnot
        · exact hfirst j hj
    unfold lookup
    rw [hfind]
    cases hf : find d name' with
    | none => rfl
    | some m =>
      have hmk : m ≠ k := by
        rintro rfl
        obtain ⟨hm, his, -⟩ := find_eq_some.mp hf
        exact hvacant hm his
      rw [Option.map_some, Option.map_some, hent, if_neg hmk]

/-- An entry with inode number 0 unbinds the name that was in its place. -/
theorem lookup_unlink (hw : DIRENT ∣ d.length) (hd : DistinctNames d) (hk : find d name = some k)
    (hbs : bs.length = DIRENT) (hzero : (getDirent bs).inum = 0) (name' : List (BitVec 8)) :
    lookup (patch d (k * DIRENT) bs) name' =
      if nameOf name' = nameOf name then none else lookup d name' := by
  obtain ⟨hlt, his, -⟩ := find_eq_some.mp hk
  have hent := dirent_patch hlt.le hbs
  have hn := nent_patch hw hlt.le hbs
  generalize patch d (k * DIRENT) bs = d' at hent hn ⊢
  have hself : ∀ nm, ¬ (dirent d' k).Is nm := by
    intro nm h
    rw [hent, if_pos rfl] at h
    exact h.1 hzero
  by_cases e : nameOf name' = nameOf name
  · rw [if_pos e, lookup_eq_none, find_eq_none]
    intro j hj h
    by_cases hjk : j = k
    · exact hself _ (hjk ▸ h)
    · rw [hent, if_neg hjk] at h
      have hsame : nameOf (dirent d j).name = nameOf (dirent d k).name :=
        (namecmp_eq_zero.mp h.2).symm.trans (e.trans (namecmp_eq_zero.mp his.2))
      exact hjk (hd j (by omega) k hlt h.1 his.1 hsame)
  · rw [if_neg e]
    have hnot : ¬ (dirent d k).Is name' :=
      fun h => e ((namecmp_eq_zero.mp h.2).trans (namecmp_eq_zero.mp his.2).symm)
    have hiff : ∀ j, (dirent d' j).Is name' ↔ (dirent d j).Is name' := by
      intro j
      by_cases hjk : j = k
      · rw [hjk]
        exact iff_of_false (hself _) hnot
      · rw [hent, if_neg hjk]
    have hn' : nent d' = nent d := by omega
    have hfind : find d' name' = find d name' := by
      unfold find
      simp only [hiff, hn']
    unfold lookup
    rw [hfind]
    cases hf : find d name' with
    | none => rfl
    | some m =>
      have hmk : m ≠ k := by
        rintro rfl
        exact hnot (find_eq_some.mp hf).2.1
      rw [Option.map_some, Option.map_some, hent, if_neg hmk]

end DuckoUnix.Fs
