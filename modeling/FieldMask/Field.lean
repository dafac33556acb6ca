import FieldMask.Path
import FieldMask.Text.CaseFold

/-!
# Fields and the paths they select

A field is a path that a client asks for, held as its segments, here called parts.  It selects a path
when both agree for as long as both have segments.  A shorter path is a container on the way to the field
and a longer one lies inside it, so both are selected.  The part `*` agrees with every segment.
-/

namespace FieldMask

/-- One path that a selector asks for. -/
structure Field where
  parts : List String
  parts_ne_nil : parts ≠ []
  slash_notMem : ∀ part ∈ parts, '/' ∉ part.toList
  deriving DecidableEq

namespace Field

/-- The part that agrees with every segment. -/
def wildcard : String := "*"

def ofString (path : String) : Field where
  parts := Path.segments path
  parts_ne_nil := Path.segments_ne_nil path
  slash_notMem _ h := Path.slash_notMem_of_mem_segments h

def text (field : Field) : String :=
  "/".intercalate field.parts

@[simp]
theorem parts_ofString
    (path : String) :
    (ofString path).parts = Path.segments path :=
  rfl

@[simp]
theorem text_ofString
    (path : String) :
    (ofString path).text = path :=
  Path.intercalate_segments path

@[simp]
theorem ofString_text
    (field : Field) :
    ofString field.text = field := by
  obtain ⟨parts, hne, hslash⟩ := field
  simp [ofString, text, Path.segments_intercalate hne hslash]

instance : Inhabited Field :=
  ⟨ofString Path.root⟩

def partAgrees (ignoreCase : Bool) (part segment : String) : Bool :=
  part == wildcard || Text.agree ignoreCase part segment

/-- Whether parts and segments agree for as long as there are both. -/
def agreesWith (ignoreCase : Bool) : List String → List String → Bool
  | part :: parts, segment :: segments =>
    partAgrees ignoreCase part segment && agreesWith ignoreCase parts segments
  | _, _ => true

/-- Whether the field selects the path with these segments. -/
def matchesSegments (field : Field) (ignoreCase : Bool) (segments : List String) : Bool :=
  agreesWith ignoreCase field.parts segments

def selects (field : Field) (ignoreCase : Bool) (path : String) : Bool :=
  field.matchesSegments ignoreCase (Path.segments path)

end Field

end FieldMask
