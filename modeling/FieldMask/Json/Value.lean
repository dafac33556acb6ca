import FieldMask.Decimal.Binary64

/-!
# JSON trees

The members of an object keep their order, and no two of them that come from a text have the same name.
A number is a whole number, held exactly, or a binary floating-point number.
-/

namespace FieldMask

inductive Number where
  | integer (value : Int)
  | binary (value : Decimal.Binary64)
  deriving DecidableEq, Repr

inductive Json where
  | null
  | bool (value : Bool)
  | number (value : Number)
  | string (value : String)
  | array (items : List Json)
  | object (members : List (String × Json))
  deriving Inhabited

namespace Json

def isEmptyContainer : Json → Bool
  | .array items => items.isEmpty
  | .object members => members.isEmpty
  | _ => false

/-- Gives a member a value: in its old place if there is one of that name, else at the end. -/
def insert (members : List (String × Json)) (name : String) (value : Json) : List (String × Json) :=
  match members with
  | [] => [(name, value)]
  | (first, old) :: rest =>
    if first = name then (name, value) :: rest else (first, old) :: insert rest name value

end Json

end FieldMask
