import FieldMask.Proofs.Matching

/-!
# Matching up to case

To ignore case is to match exactly what has been folded: the parts of the fields and the path
(`FieldSet.selects_true_eq_folded`).  This rests on two characters.  Folding neither makes nor removes a slash, so a
folded path has the folded segments (`Path.segments_foldString`); and it neither makes nor removes an asterisk,
so a folded part is the wildcard only if the part is.  Both hold because every character that folding moves, and
every one that it moves to, comes after the digits (`Text.fold_eq_iff`).
-/

namespace FieldMask

namespace Text

theorem lt_of_mem_uppercaseRuns :
    ∀ run ∈ uppercaseRuns, 0x39 < run.first ∧ 0x39 < run.first + run.shift := by
  decide +kernel

/-- A number that is no character stands for the character zero, so any other one has a single number. -/
theorem eq_toNat_of_ofNat_eq
    {code : Nat} {mark : Char} (hpos : 0 < mark.toNat) (h : Char.ofNat code = mark) :
    code = mark.toNat := by
  by_cases hvalid : code.isValidChar
  · have hchar : Char.ofNat code = Char.ofNatAux code hvalid := dif_pos hvalid
    rw [← h, hchar]
    rfl
  · have hzero : Char.ofNat code = Char.ofNat 0 := dif_neg hvalid
    rw [← h, hzero] at hpos
    cases hpos

/-- Folding leaves the characters up to the digits alone, and moves no other character there. -/
theorem fold_eq_iff
    {mark : Char} (hpos : 0 < mark.toNat) (hle : mark.toNat ≤ 0x39) (c : Char) :
    fold c = mark ↔ c = mark := by
  unfold fold
  split
  · rename_i run hfind
    have hrun := lt_of_mem_uppercaseRuns run (List.mem_of_find?_eq_some hfind)
    have hcontains : run.contains c.toNat = true := by simpa using List.find?_some hfind
    have hfirst : run.first ≤ c.toNat := by
      simp only [Run.contains, Bool.and_eq_true, decide_eq_true_eq] at hcontains
      exact hcontains.1.1
    have hmoved : Char.ofNat (c.toNat + run.shift).toNat ≠ mark := by
      intro hmark
      have hcode := eq_toNat_of_ofNat_eq hpos hmark
      omega
    have hc : c ≠ mark := by
      rintro rfl
      omega
    exact iff_of_false hmoved hc
  · rfl

@[simp]
theorem fold_eq_slash_iff
    (c : Char) :
    fold c = '/' ↔ c = '/' :=
  fold_eq_iff (by decide) (by decide) c

@[simp]
theorem fold_eq_asterisk_iff
    (c : Char) :
    fold c = '*' ↔ c = '*' :=
  fold_eq_iff (by decide) (by decide) c

theorem slash_mem_foldString_iff
    (text : String) :
    '/' ∈ (foldString text).toList ↔ '/' ∈ text.toList := by
  simp

theorem foldString_eq_wildcard_iff
    (part : String) :
    foldString part = Field.wildcard ↔ part = Field.wildcard := by
  have hwildcard : Field.wildcard.toList = ['*'] := rfl
  rw [← String.toList_inj, ← String.toList_inj, toList_foldString, hwildcard]
  cases part.toList with
  | nil => simp
  | cons c rest => simp

end Text

namespace Path

theorem splitOn_map
    {f : Char → Char} {mark : Char} (hf : ∀ c, f c = mark ↔ c = mark) (text : List Char) :
    (text.map f).splitOn mark = (text.splitOn mark).map (List.map f) := by
  induction text with
  | nil => rfl
  | cons c rest ih =>
      rw [List.map_cons, List.splitOn_cons_eq_if_modifyHead, List.splitOn_cons_eq_if_modifyHead, ih]
      by_cases hc : c = mark
      · simp [hc, (hf mark).mpr rfl]
      · have hfc : f c ≠ mark := fun h => hc ((hf c).mp h)
        obtain ⟨first, others, hsplit⟩ := List.exists_cons_of_ne_nil (List.splitOn_ne_nil mark rest)
        simp [hc, hfc, hsplit]

/-- A folded path has the folded segments. -/
theorem segments_foldString
    (path : String) :
    segments (Text.foldString path) = (segments path).map Text.foldString := by
  simp [segments, splitOn_map Text.fold_eq_slash_iff, Text.foldString]

end Path

namespace Field

def folded (field : Field) : Field where
  parts := field.parts.map Text.foldString
  parts_ne_nil := by simp [field.parts_ne_nil]
  slash_notMem := by
    intro part hpart
    obtain ⟨original, horiginal, rfl⟩ := List.mem_map.mp hpart
    rw [Text.slash_mem_foldString_iff]
    exact field.slash_notMem original horiginal

theorem partAgrees_true_eq
    (part segment : String) :
    partAgrees true part segment =
      partAgrees false (Text.foldString part) (Text.foldString segment) := by
  rw [Bool.eq_iff_iff]
  simp [partAgrees, Text.foldString_eq_wildcard_iff]

theorem agreesWith_true_eq
    (parts segments : List String) :
    agreesWith true parts segments =
      agreesWith false (parts.map Text.foldString) (segments.map Text.foldString) := by
  induction parts generalizing segments with
  | nil => simp [agreesWith]
  | cons part parts ih =>
      cases segments with
      | nil => simp [agreesWith]
      | cons segment segments =>
          rw [List.map_cons, List.map_cons, agreesWith, agreesWith, partAgrees_true_eq, ih]

theorem selects_true_eq_folded
    (field : Field) (path : String) :
    field.selects true path = field.folded.selects false (Text.foldString path) := by
  rw [selects, selects, matchesSegments, matchesSegments, Path.segments_foldString]
  exact agreesWith_true_eq field.parts (Path.segments path)

end Field

namespace FieldSet

def folded (set : FieldSet) : FieldSet :=
  ⟨set.fields.map Field.folded⟩

theorem selects_true_eq_folded
    (set : FieldSet) (path : String) :
    set.selects true path = set.folded.selects false (Text.foldString path) := by
  rw [selects_eq_any, selects_eq_any, folded, List.any_map]
  congr 1
  funext field
  exact field.selects_true_eq_folded path

/-- A set selects a path up to case exactly when the folded set selects the folded path; paths with the same
folded path are selected alike; and what is selected exactly is selected up to case. -/
theorem selects_true_eq
    (set : FieldSet) (path : String) :
    set.selects true path = set.folded.selects false (Text.foldString path) ∧
    (∀ other, Text.foldString path = Text.foldString other →
      set.selects true path = set.selects true other) ∧
    (set.selects false path = true → set.selects true path = true) := by
  refine ⟨set.selects_true_eq_folded path, ?_, ?_⟩
  · intro other hfold
    rw [selects_true_eq_folded, selects_true_eq_folded, hfold]
  · exact selects_of_subset (List.Subset.refl set.fields) fun _ => rfl

theorem selects_true_eq_strasse :
    Text.foldString "Straße/öl/ŉ" = Text.foldString "sTRAßE/ÖL/ŉ" ∧
      (ofPaths ["id", "straße/*"]).selects true "Straße/öl/ŉ" =
        (ofPaths ["id", "straße/*"]).selects true "sTRAßE/ÖL/ŉ" ∧
      (ofPaths ["id", "straße/*"]).selects false "straße/öl" = true ∧
      (ofPaths ["id", "straße/*"]).selects true "straße/öl" = true := by
  have hfold : Text.foldString "Straße/öl/ŉ" = Text.foldString "sTRAßE/ÖL/ŉ" := by decide +kernel
  have hexact : (ofPaths ["id", "straße/*"]).selects false "straße/öl" = true := by decide +kernel
  exact ⟨hfold, (selects_true_eq _ _).2.1 _ hfold, hexact, (selects_true_eq _ _).2.2 hexact⟩

end FieldSet

end FieldMask
