import FieldMask.Field
import FieldMask.Proofs.Paths

/-!
# Fields and their texts

The segments of a path are the only parts without slashes that give the path when they are joined again
(`Path.segments_eq_iff`).  Every slash counts: one at the front or at the end of a path has an empty segment
beside it, and two slashes have one between them.

So a field is cut out of a text and written back without loss, either way round.  And since a path that is not
empty goes on behind a slash, its segments stay where they are when a name comes behind it.
-/

namespace FieldMask

theorem Path.segments_eq_iff
    {path : String} {parts : List String} :
    segments path = parts ↔
      parts ≠ [] ∧ (∀ part ∈ parts, '/' ∉ part.toList) ∧ "/".intercalate parts = path := by
  constructor
  · rintro rfl
    exact ⟨segments_ne_nil path, fun _ => slash_notMem_of_mem_segments, intercalate_segments path⟩
  · rintro ⟨hne, hslash, rfl⟩
    exact segments_intercalate hne hslash

namespace Field

/-- Fields and texts correspond to each other.  Every text gives a field, of at least one part and without slashes
in its parts, whose text it is; all lists of such parts come about in this way, from the text that joins them; and
the parts of a path with a name behind it are those of the path and then those of the name. -/
theorem ofString_inverse_text :
    (∀ source : String, 1 ≤ (ofString source).parts.length ∧
      (∀ part ∈ (ofString source).parts, '/' ∉ part.toList) ∧ (ofString source).text = source) ∧
    (∀ field : Field, ofString field.text = field) ∧
    (∀ parts : List String, parts ≠ [] → (∀ part ∈ parts, '/' ∉ part.toList) →
      (ofString ("/".intercalate parts)).parts = parts) ∧
    ∀ path name : String, path ≠ "" →
      Path.segments (Path.child path name) = Path.segments path ++ Path.segments name := by
  refine ⟨?_, ofString_text, ?_, fun path name => Path.segments_child_of_ne_root name⟩
  · intro source
    obtain ⟨hne, hslash, -⟩ := Path.segments_eq_iff.mp (parts_ofString source).symm
    exact ⟨List.length_pos_iff.mpr hne, hslash, text_ofString source⟩
  · intro parts hne hslash
    exact Path.segments_eq_iff.mpr ⟨hne, hslash, rfl⟩

example :
    (ofString "/a//").parts = ["", "a", "", ""] ∧ (ofString "").parts = [""] := by
  decide

end Field

end FieldMask
