import FieldMask.Selector.Parser

/-!
# Sets of fields

A set of fields is what a selector asks for, in the order of the selector.  It selects a path when one
of its fields does, so the set without fields selects nothing.  Its canonical text writes every field
out as a path, with commas between them.
-/

namespace FieldMask

open Selector (SyntaxError)

/-- The fields of a selector. -/
structure FieldSet where
  fields : List Field
  deriving DecidableEq, Inhabited

namespace FieldSet

/-- The set that selects no path. -/
def empty : FieldSet :=
  ⟨[]⟩

/-- The fields with these paths, taken as they are. -/
def ofPaths (paths : List String) : FieldSet :=
  ⟨paths.map Field.ofString⟩

/-- Reads a selector; a malformed one gives no fields at all. -/
def parse (source : String) : Except SyntaxError FieldSet :=
  (Selector.read source).result.map FieldSet.mk

def size (set : FieldSet) : Nat :=
  set.fields.length

def isEmpty (set : FieldSet) : Bool :=
  set.fields.isEmpty

def selects (set : FieldSet) (ignoreCase : Bool) (path : String) : Bool :=
  set.fields.any (·.matchesSegments ignoreCase (Path.segments path))

/-- The selector that lists the fields one by one. -/
def canonical (set : FieldSet) : String :=
  ",".intercalate (set.fields.map Field.text)

@[simp]
theorem selects_empty
    (ignoreCase : Bool) (path : String) :
    empty.selects ignoreCase path = false :=
  rfl

theorem selects_eq_any
    (set : FieldSet) (ignoreCase : Bool) (path : String) :
    set.selects ignoreCase path = set.fields.any (·.selects ignoreCase path) :=
  rfl

end FieldSet

end FieldMask
