import FieldMask.Decimal.Layout
import FieldMask.Json.Quoted
import FieldMask.Json.Value

/-!
# Writing JSON texts

A tree is written as a series of pieces, which together are its text, so that a writer can send it out
bit by bit.  Where lines break and what stands around a colon is a matter of style: the compact style
has no blanks at all, and the indented style puts every item and member on a line of its own.  An empty
container is written the same in both.
-/

namespace FieldMask.Json

/-- Numbers from `0.00001` up to sixteen digits before the point are written positionally. -/
def numberLayout : Decimal.Layout :=
  ⟨-5, 15⟩

def numberText : Number → String
  | .integer value => toString value
  | .binary value => value.text numberLayout

section

open Decimal (Binary64)

example : numberText (.integer (-5)) = "-5" := by decide +kernel

example : numberText (.binary ⟨true, 0⟩) = "-0.0" := by decide +kernel

example : numberText (.binary ⟨false, Binary64.ofNat 100⟩) = "100.0" := by decide +kernel

example : numberText (.binary ⟨false, Binary64.ofNat (Nat.pow 10 16)⟩) = "1e+16" := by
  decide +kernel

example :
    numberText (.binary ⟨true, Binary64.div (Binary64.ofNat 1) (Binary64.ofNat 100000)⟩) =
      "-0.00001" := by
  decide +kernel

end

/-- How the parts of a text are set apart. -/
structure Style where
  /-- What precedes a part inside so many containers. -/
  lineBreak : Nat → String
  /-- What stands between a name and its value. -/
  colon : String

namespace Style

def compact : Style :=
  ⟨fun _ => "", ":"⟩

/-- One part a line, with two spaces for every container around it. -/
def indented : Style :=
  ⟨fun depth => String.ofList ('\n' :: List.replicate (2 * depth) ' '), ": "⟩

end Style

mutual

/-- The pieces of a value inside `depth` containers. -/
def pieces (style : Style) (depth : Nat) : Json → List String
  | .null => ["null"]
  | .bool value => [if value then "true" else "false"]
  | .number value => [numberText value]
  | .string value => [Quoted.encode value]
  | .array [] => ["[]"]
  | .array (item :: items) =>
    "[" :: itemPieces style (depth + 1) "" (item :: items) ++ [style.lineBreak depth, "]"]
  | .object [] => ["\x7b\x7d"]
  | .object (member :: members) =>
    "\x7b" :: memberPieces style (depth + 1) "" (member :: members) ++ [style.lineBreak depth, "\x7d"]

/-- The pieces of items, the first of which follows `separator`. -/
def itemPieces (style : Style) (depth : Nat) (separator : String) : List Json → List String
  | [] => []
  | item :: items =>
    separator :: style.lineBreak depth :: pieces style depth item ++ itemPieces style depth "," items

/-- The pieces of members, the first of which follows `separator`. -/
def memberPieces (style : Style) (depth : Nat) (separator : String) :
    List (String × Json) → List String
  | [] => []
  | (name, value) :: members =>
    separator :: style.lineBreak depth :: Quoted.encode name :: style.colon ::
      pieces style depth value ++ memberPieces style depth "," members

end

def render (style : Style) (value : Json) : String :=
  String.join (pieces style 0 value)

end FieldMask.Json
