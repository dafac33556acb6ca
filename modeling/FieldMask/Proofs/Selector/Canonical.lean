import FieldMask.Proofs.Selector.Correctness

/-!
# Canonical selectors

The canonical text of a set of fields spells the selection whose branches are the fields, without groups
and without blanks.  That selection is well-formed when every part of every field can be a name, and then
reading the text gives the set back.  A selector that is read gives such a set, so nothing else can come
back: a part that is empty or has a delimiter or a blank in it is lost for good.
-/

namespace FieldMask

namespace Selector

theorem isName_iff
    (text : String) :
    IsName text ↔
      text ≠ "" ∧ ∀ c ∈ text.toList, c ∉ ['/', '(', ')', ',', ' ', '\t', '\r', '\n'] := by
  simp only [IsName, isNameChar_iff]

/-- Texts with a separator between them spell the lexemes of the texts with the separator between them. -/
theorem spells_intercalate
    {α : Type} {lexemes : α → List Lexeme} {text : α → List Char} (separator : Lexeme)
    (pieces : List α) (h : ∀ piece ∈ pieces, Spells (lexemes piece) (text piece)) :
    Spells ([separator].intercalate (pieces.map lexemes))
      (separator.2.toList.intercalate (pieces.map text)) := by
  induction pieces with
  | nil => exact .nil (by simp)
  | cons piece pieces ih =>
      rw [List.forall_mem_cons] at h
      cases pieces with
      | nil => simpa using h.1
      | cons next others =>
          simp only [List.map_cons, List.intercalate_cons_cons] at ih ⊢
          exact (h.1.append (spells_lexeme separator)).append (ih h.2)

theorem pathLexemes_eq_intercalate
    (first : String) (more : List String) :
    pathLexemes first more =
      [(.forwardSlash, "/")].intercalate ((first :: more).map fun name => [(.identifier, name)]) := by
  induction more generalizing first with
  | nil => rfl
  | cons name more ih =>
      have htail := ih name
      rw [List.map_cons] at htail
      rw [List.map_cons, List.map_cons, List.intercalate_cons_cons, ← htail]
      simp [pathLexemes]

theorem lexemesAll_eq_intercalate
    (branches : List Branch) :
    lexemesAll [] branches = [(.comma, ",")].intercalate (branches.map Branch.lexemes) := by
  induction branches with
  | nil => rfl
  | cons branch branches ih =>
      cases branches with
      | nil => simp [lexemesAll]
      | cons next others =>
          rw [List.map_cons] at ih
          rw [List.map_cons, List.map_cons, List.intercalate_cons_cons, ← ih,
            lexemesAll, lexemesAll_comma, List.nil_append, List.append_assoc, List.singleton_append]

end Selector

open Selector

/-! ## Fields as branches -/

namespace Field

/-- The branch without a group that asks for the field alone. -/
def branch (field : Field) : Branch :=
  .mk (field.parts.head field.parts_ne_nil) field.parts.tail []

theorem ends_branch
    (field : Field) :
    field.branch.ends [] = [field.parts] := by
  simp [branch, Branch.ends]

theorem wellFormed_branch
    {field : Field} (h : ∀ part ∈ field.parts, IsName part) :
    field.branch.WellFormed := by
  rw [branch, Branch.WellFormed, List.cons_head_tail]
  exact ⟨h, trivial⟩

theorem spells_text
    (field : Field) :
    Spells field.branch.lexemes field.text.toList := by
  have htext : field.text.toList = ['/'].intercalate (field.parts.map String.toList) := by
    simp [text, String.toList_intercalate]
  rw [branch, Branch.lexemes, pathLexemes_eq_intercalate, List.cons_head_tail, htext]
  exact spells_intercalate (.forwardSlash, "/") field.parts fun part _ =>
    spells_lexeme (.identifier, part)

theorem parts_injective
    {field other : Field} (h : field.parts = other.parts) :
    field = other := by
  cases field
  cases other
  cases h
  rfl

end Field

namespace FieldSet

theorem eq_of_map_parts_eq
    {set other : FieldSet} (h : set.fields.map Field.parts = other.fields.map Field.parts) :
    set = other := by
  obtain ⟨fields⟩ := set
  obtain ⟨others⟩ := other
  exact congrArg FieldSet.mk (List.map_injective_iff.mpr (fun _ _ => Field.parts_injective) h)

/-- Every part of every field can be a name. -/
def Writable (set : FieldSet) : Prop :=
  ∀ field ∈ set.fields, ∀ part ∈ field.parts, IsName part

theorem endsAll_branches
    (fields : List Field) :
    endsAll [] (fields.map Field.branch) = fields.map Field.parts := by
  induction fields with
  | nil => rfl
  | cons field fields ih => simp [endsAll, Field.ends_branch, ih]

theorem spells_canonical
    (set : FieldSet) :
    Spells (lexemesAll [] (set.fields.map Field.branch)) set.canonical.toList := by
  have htext : set.canonical.toList =
      [','].intercalate (set.fields.map fun field => field.text.toList) := by
    simp [canonical, String.toList_intercalate, Function.comp_def]
  rw [lexemesAll_eq_intercalate, List.map_map, htext]
  exact spells_intercalate (.comma, ",") set.fields fun field _ => field.spells_text

theorem Writable.parse_canonical
    {set : FieldSet} (h : set.Writable) :
    parse set.canonical = .ok set := by
  have hspells := set.spells_canonical
  cases hfields : set.fields with
  | nil =>
      rw [hfields] at hspells
      cases hspells with
      | nil hblank =>
          obtain rfl : set = empty := congrArg FieldSet.mk hfields
          exact parse_blank hblank
  | cons field fields =>
      rw [hfields] at hspells
      let selection : Selection := ⟨field.branch, fields.map Field.branch⟩
      have hbranches : selection.branches = set.fields.map Field.branch := by
        rw [hfields]
        rfl
      have hwf : selection.WellFormed := by
        rw [Selection.WellFormed, wellFormedAll_iff, hbranches, List.forall_mem_map]
        intro other hother
        exact Field.wellFormed_branch (h other hother)
      have hends : selection.ends = set.fields.map Field.parts := by
        rw [Selection.ends, hbranches, endsAll_branches]
      obtain ⟨other, hparse, hparts⟩ := parse_spelled hwf hspells
      rw [hparse, eq_of_map_parts_eq (hparts.trans hends)]

/-- What is read from a selector can be written. -/
theorem writable_of_parse
    {source : String} {set : FieldSet} (h : parse source = .ok set) :
    set.Writable := by
  rcases blank_or_spelled_of_parse h with ⟨-, rfl⟩ | ⟨selection, hwf, -, hparts⟩
  · simp [Writable, empty]
  · intro field hfield part hpart
    have hend : field.parts ∈ selection.ends := hparts ▸ List.mem_map_of_mem hfield
    obtain ⟨branch, hbranch, hend⟩ := mem_endsAll_iff.mp hend
    exact (isName_of_mem_ends ((wellFormedAll_iff _).mp hwf branch hbranch) (by simp) hend).2 part hpart

/-- The canonical text of a set gives the set back exactly when all its parts are names; every set that a
selector gives is one of these. -/
theorem parse_canonical_eq_ok_iff :
    (∀ set : FieldSet, parse set.canonical = .ok set ↔
      ∀ field ∈ set.fields, ∀ part ∈ field.parts,
        part ≠ "" ∧ ∀ c ∈ part.toList, c ∉ ['/', '(', ')', ',', ' ', '\t', '\r', '\n']) ∧
    ∀ (source : String) (set : FieldSet), parse source = .ok set →
      (∀ field ∈ set.fields, ∀ part ∈ field.parts,
        part ≠ "" ∧ ∀ c ∈ part.toList, c ∉ ['/', '(', ')', ',', ' ', '\t', '\r', '\n']) ∧
      parse set.canonical = .ok set := by
  simp only [← isName_iff]
  constructor
  · intro set
    exact ⟨writable_of_parse, Writable.parse_canonical⟩
  · intro source set hparse
    have hwritable := writable_of_parse hparse
    exact ⟨hwritable, hwritable.parse_canonical⟩

end FieldSet

end FieldMask
