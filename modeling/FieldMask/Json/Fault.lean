/-!
# What can be wrong with a JSON text
-/

namespace FieldMask.Json

/-- Why a text could not be read. -/
inductive Fault where
  /-- The text ends before the value does. -/
  | truncated
  /-- The text is not JSON, or says something that cannot be held. -/
  | malformed
  /-- The text is JSON, but not of the shape that was asked for. -/
  | mismatched
  deriving DecidableEq, Repr, Inhabited

/-- How much of a text's meaning a reading insists on. -/
structure Rules where
  /-- The greatest number of containers inside one another, if there is one. -/
  maxDepth : Option Nat
  /-- Whether strings must denote characters and numbers be in range. -/
  meaningful : Bool
  /-- The fault of a number that the end of the text cuts short. -/
  cutNumber : Fault
  deriving DecidableEq, Repr

namespace Rules

def keeping : Rules :=
  ⟨some 127, true, .truncated⟩

/-- The rules for a value that is passed over: only its form counts. -/
def skipping : Rules :=
  ⟨none, false, .malformed⟩

end Rules

end FieldMask.Json
