import FieldMask.Decimal.Binary64

/-!
# The shortest decimal that reads back

Many decimals round to one number of the binary format.  The one to write has the fewest digits, and
among those it is the nearest to the number; from halfway it is the one with the even last digit.

The decimals that round to a number form an interval between the midpoints towards its neighbours.  The
midpoints belong to it when the significand is even, since rounding from halfway goes to even.  A decimal
with few digits is a multiple of a high power of ten, so the search goes through the powers of ten from
the highest down and stops at the first that has a multiple in the interval.  The nearest multiple is
one of the two around the number.
-/

namespace FieldMask.Decimal

/-- The decimal `digits * 10 ^ exponent`. -/
structure Scientific where
  digits : Nat
  exponent : Int
  deriving DecidableEq, Repr, Inhabited

namespace Binary64

/-- The distance from a magnitude to the next smaller one. -/
def spacingBelow (units : Nat) : Nat :=
  if units == Nat.pow 2 units.log2 && 53 ≤ units.log2 then spacing units / 2 else spacing units

/-- Whether the magnitude has an even significand. -/
def isEven (units : Nat) : Bool :=
  units / spacing units % 2 == 0

/-- Whether the quotient `num / den` of units rounds to the magnitude, told by the midpoints. -/
def roundsTo (units num den : Nat) : Bool :=
  let low := (2 * units - spacingBelow units) * den
  let high := (2 * units + spacing units) * den
  let point := 2 * num
  low < point && point < high || isEven units && (low == point || point == high)

/-- The multiple of `10 ^ exponent` that rounds to the magnitude and is nearest to it.  The interval is
narrower on one side around a power of two, so the farther neighbour may be the only one inside. -/
def multipleNear? (units : Nat) (exponent : Int) : Option Scientific :=
  let step := unitsPerOne * Nat.pow 10 exponent.toNat
  let scale := Nat.pow 10 (-exponent).toNat
  let nearest := roundDiv (units * scale) step
  let below := units * scale / step
  ([nearest, below, below + 1].find? fun digits => roundsTo units (digits * step) scale).map
    (⟨·, exponent⟩)

/-- An exponent above that of every decimal that rounds to the magnitude. -/
def topExponent (units : Nat) : Nat :=
  (Nat.toDigits 10 (units / unitsPerOne)).length

/-- The lowest exponent that is ever needed, that of the smallest positive number. -/
def bottomExponent : Nat :=
  324

/-- The shortest decimal for a magnitude. -/
def shortest (units : Nat) : Scientific :=
  let top := topExponent units
  let exponents := (List.range (top + bottomExponent + 1)).map fun (steps : Nat) => (top : Int) - steps
  (exponents.findSome? (multipleNear? units)).getD ⟨0, 0⟩

end Binary64

end FieldMask.Decimal
