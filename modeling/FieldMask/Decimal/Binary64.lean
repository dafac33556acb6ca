/-!
# Finite binary floating-point numbers of 64 bits

Every finite number of this format is a whole multiple of the smallest positive one, `2 ^ -1074`, which
is the unit here.  A magnitude is therefore a natural number, and all arithmetic is exact arithmetic on
natural numbers followed by one rounding.

Around a magnitude of `u` units the numbers of the format lie `spacing u` units apart: they have 53
significant binary digits, and never fewer than one unit between them.  Rounding goes to the nearest
such number and, from halfway, to the one with the even significand.  A magnitude that rounds to
`2 ^ 2098` units or more is too large for the format.
-/

namespace FieldMask.Decimal

/-- A quotient rounded to the nearest natural number, and from halfway to the even one. -/
def roundDiv (num den : Nat) : Nat :=
  let quotient := num / den
  let twice := 2 * (num % den)
  if twice < den || (twice == den && quotient % 2 == 0) then quotient else quotient + 1

/-- A finite number: its sign, which zero has too, and its magnitude in units. -/
structure Binary64 where
  negative : Bool
  units : Nat
  deriving DecidableEq, Repr, Inhabited

namespace Binary64

def unitsPerOne : Nat :=
  Nat.pow 2 1074

/-- The least magnitude that is too large. -/
def overflow : Nat :=
  Nat.pow 2 2098

/-- The distance between neighbouring numbers from this magnitude on upwards. -/
def spacing (units : Nat) : Nat :=
  Nat.pow 2 (units.log2 - 52)

/-- The magnitude nearest to a quotient of units, too large or not. -/
def nearest (num den : Nat) : Nat :=
  let gap := spacing (num / den)
  roundDiv num (den * gap) * gap

def ofNat (n : Nat) : Nat :=
  nearest (n * unitsPerOne) 1

def mul (a b : Nat) : Nat :=
  nearest (a * b) unitsPerOne

def div (a b : Nat) : Nat :=
  nearest (a * unitsPerOne) b

/-- The number with this magnitude, unless that is too large. -/
def ofUnits? (negative : Bool) (units : Nat) : Option Binary64 :=
  if units < overflow then some ⟨negative, units⟩ else none

end Binary64

end FieldMask.Decimal
