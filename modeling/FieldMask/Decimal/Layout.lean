import FieldMask.Decimal.Shortest

/-!
# Writing a decimal out

A number of ordinary size is written positionally and always with a fraction, such as `100.0`.  A very
large or very small one is written as its digits with an exponent, such as `1.5e+300`.  Which numbers
count as ordinary is a choice of the format, given by the exponents of the leading digit.
-/

namespace FieldMask.Decimal

/-- The exponents of the leading digit for which numbers are written positionally. -/
structure Layout where
  lowest : Int
  highest : Int
  deriving DecidableEq, Repr

namespace Layout

def zeros (count : Nat) : List Char :=
  List.replicate count '0'

/-- Digits with a point after the first `whole` of them; zeros fill in on either side. -/
def positional (digits : List Char) (whole : Int) : List Char :=
  let count := whole.toNat
  if whole ≤ 0 then
    ['0', '.'] ++ zeros (-whole).toNat ++ digits
  else if digits.length ≤ count then
    digits ++ zeros (count - digits.length) ++ ['.', '0']
  else
    digits.take count ++ '.' :: digits.drop count

def exponentPart (exponent : Int) : List Char :=
  'e' :: (if exponent < 0 then '-' else '+') :: Nat.toDigits 10 exponent.natAbs

/-- Digits with a point after the first, if more follow, and an exponent. -/
def scientific (digits : List Char) (exponent : Int) : List Char :=
  match digits with
  | [] => exponentPart exponent
  | [digit] => digit :: exponentPart exponent
  | digit :: more => digit :: '.' :: (more ++ exponentPart exponent)

/-- The text of a positive decimal. -/
def write (layout : Layout) (decimal : Scientific) : List Char :=
  let digits := Nat.toDigits 10 decimal.digits
  let leading := decimal.exponent + digits.length - 1
  if layout.lowest ≤ leading ∧ leading ≤ layout.highest then
    positional digits (leading + 1)
  else
    scientific digits leading

end Layout

namespace Binary64

/-- The text of a number: the shortest decimal that reads back, in the given layout. -/
def text (layout : Layout) (number : Binary64) : String :=
  let magnitude :=
    if number.units = 0 then ['0', '.', '0'] else layout.write (shortest number.units)
  String.ofList (if number.negative then '-' :: magnitude else magnitude)

end Binary64

end FieldMask.Decimal
