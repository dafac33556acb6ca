import FieldMask.FieldSet
import FieldMask.Options.Basic
import FieldMask.Query

/-!
# Requests

A request asks for a whole resource or, with a selector, for a part of it.  The selector is held as it
came, well-formed or not, and read when its fields are needed.  A request may also be marked to get the
whole resource whatever its selector says.
-/

namespace FieldMask

open Selector (SyntaxError)

/-- What a client asks for. -/
structure Request where
  selector : Option String := none
  /-- Whether the selector is to be ignored. -/
  bypass : Bool := false
  deriving DecidableEq, Repr, Inhabited

namespace Request

/-- The request that a query string makes, with its selector in the parameter that the options name. -/
def ofQuery (query : String) (options : Options) : Request :=
  { selector := Query.value? query options.queryParameter }

/-- The fields asked for; none are when the whole resource is. -/
def fields (request : Request) : Except SyntaxError (Option FieldSet) :=
  if request.bypass then
    .ok none
  else
    match request.selector with
    | none => .ok none
    | some selector => (FieldSet.parse selector).map some

end Request

end FieldMask
