import FieldMask.Json.Value
import FieldMask.Path

/-!
# Pruning a tree

A property stays when its path is kept, and what stays of its value is what stays of the parts of that
value.  The items of an array have the path of the array.  A container that held something and is left
with nothing goes too, unless it is the root; one that held nothing to begin with stays.
-/

namespace FieldMask.Json

/-- Whether a container that held something is left with nothing. -/
def emptied (before after : Json) : Bool :=
  after.isEmptyContainer && !before.isEmptyContainer

mutual

/-- What stays of a value whose path is `path`. -/
def prune (keep : String → Bool) (path : String) : Json → Json
  | .array items => .array (pruneItems keep path items)
  | .object members => .object (pruneMembers keep path members)
  | .null => .null
  | .bool value => .bool value
  | .number value => .number value
  | .string value => .string value

def pruneItems (keep : String → Bool) (path : String) : List Json → List Json
  | [] => []
  | item :: items =>
    let pruned := prune keep path item
    let others := pruneItems keep path items
    if emptied item pruned then others else pruned :: others

def pruneMembers (keep : String → Bool) (path : String) :
    List (String × Json) → List (String × Json)
  | [] => []
  | (name, value) :: members =>
    let pruned := prune keep (Path.child path name) value
    let others := pruneMembers keep path members
    if keep (Path.child path name) && !emptied value pruned then (name, pruned) :: others else others

end

def filter (keep : String → Bool) (tree : Json) : Json :=
  prune keep Path.root tree

end FieldMask.Json
