import FieldMask.Text.Hex
import FieldMask.Text.Utf8

/-!
# Query strings

A query string is a list of named values.  Ampersands stand between the pairs and pieces without any
text are passed over; the first equals sign of a piece ends its name.  In names and values a plus sign
stands for a space, and a percent sign with two hexadecimal digits for a byte of the UTF-8 form.  Nothing
is malformed: a percent sign without its digits stands for itself, and bytes that are not UTF-8 become
replacement characters.
-/

namespace FieldMask.Query

/-- The query string without the question mark that may set it off from what is in front of it. -/
def body (query : List Char) : List Char :=
  match query with
  | '?' :: rest => rest
  | _ => query

/-- The bytes that the characters of a name or value stand for. -/
def bytes : List Char → List UInt8
  | [] => []
  | '+' :: rest => 0x20 :: bytes rest
  | '%' :: a :: b :: rest =>
    match Text.hexValue? a, Text.hexValue? b with
    | some high, some low => UInt8.ofNat (16 * high + low) :: bytes rest
    | _, _ => 0x25 :: bytes (a :: b :: rest)
  | c :: rest => String.utf8EncodeChar c ++ bytes rest

/-- The text that the characters of a name or value stand for. -/
def decode (component : List Char) : String :=
  String.ofList (Text.Utf8.decode (bytes component))

def pair (piece : List Char) : String × String :=
  (decode (piece.takeWhile (· != '=')), decode ((piece.dropWhile (· != '=')).drop 1))

def pairs (query : String) : List (String × String) :=
  (((body query.toList).splitOn '&').filter (!·.isEmpty)).map pair

def value? (query name : String) : Option String :=
  (pairs query).lookup name

end FieldMask.Query
