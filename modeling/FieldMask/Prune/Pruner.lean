import FieldMask.Prune.Basic
import FieldMask.Prune.Ledger

/-!
# Pruning with an account of the questions

A pruner prunes trees by one predicate and keeps account of the paths that it asks the predicate about.
It asks about all members of an object, in their order, before it looks inside any of them, and it never
looks inside a member that goes.  Properties in different items of an array may share a path, which is
why remembering verdicts pays; what stays of a tree does not depend on it.

The account is of the last tree only.
-/

namespace FieldMask.Prune

def judgeMembers (keep : String → Bool) (path : String) :
    List (String × Json) → Ledger → List Bool × Ledger
  | [], ledger => ([], ledger)
  | (name, _) :: members, ledger =>
    let (verdict, ledger) := ledger.judge keep (Path.child path name)
    let (verdicts, ledger) := judgeMembers keep path members ledger
    (verdict :: verdicts, ledger)

mutual

/-- What stays of a value whose path is `path`. -/
def visit (keep : String → Bool) (path : String) : Json → Ledger → Json × Ledger
  | .array items, ledger =>
    let (items, ledger) := visitItems keep path items ledger
    (.array items, ledger)
  | .object members, ledger =>
    let (verdicts, ledger) := judgeMembers keep path members ledger
    let (members, ledger) := visitMembers keep path members verdicts ledger
    (.object members, ledger)
  | .null, ledger => (.null, ledger)
  | .bool value, ledger => (.bool value, ledger)
  | .number value, ledger => (.number value, ledger)
  | .string value, ledger => (.string value, ledger)

def visitItems (keep : String → Bool) (path : String) :
    List Json → Ledger → List Json × Ledger
  | [], ledger => ([], ledger)
  | item :: items, ledger =>
    let (pruned, ledger) := visit keep path item ledger
    let (others, ledger) := visitItems keep path items ledger
    (if Json.emptied item pruned then others else pruned :: others, ledger)

/-- What stays of the members of an object, given the verdicts on them. -/
def visitMembers (keep : String → Bool) (path : String) :
    List (String × Json) → List Bool → Ledger → List (String × Json) × Ledger
  | (name, value) :: members, true :: verdicts, ledger =>
    let (pruned, ledger) := visit keep (Path.child path name) value ledger
    let (others, ledger) := visitMembers keep path members verdicts ledger
    (if Json.emptied value pruned then others else (name, pruned) :: others, ledger)
  | _ :: members, false :: verdicts, ledger => visitMembers keep path members verdicts ledger
  | _, _, ledger => ([], ledger)

end

/-- A predicate on paths with the account of the last pruning by it. -/
structure Pruner where
  keep : String → Bool
  ledger : Ledger

namespace Pruner

def new (keep : String → Bool) (remembers : Bool) : Pruner :=
  ⟨keep, .empty remembers⟩

def apply (pruner : Pruner) (tree : Json) : Json × Pruner :=
  let (pruned, ledger) := visit pruner.keep Path.root tree pruner.ledger.clear
  (pruned, { pruner with ledger })

/-- How often a pruner asked about a path of the last tree, and how often it remembered the verdict. -/
def stats (pruner : Pruner) : Nat × Nat :=
  (pruner.ledger.evaluated, pruner.ledger.recalled)

@[simp]
theorem keep_apply
    (pruner : Pruner) (tree : Json) :
    (pruner.apply tree).2.keep = pruner.keep :=
  rfl

end Pruner

end FieldMask.Prune
