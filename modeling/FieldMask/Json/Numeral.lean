import FieldMask.Json.Fault
import FieldMask.Json.Value

/-!
# Numbers in JSON texts

A numeral is a sign, whole digits without a needless leading zero, and perhaps a fraction and an
exponent.  `Numeral.scan` takes it off the front of a text; `Numeral.value?` says which number it
denotes.

A numeral of whole digits alone is an integer if it fits into 64 bits, with a sign bit when it is
negative.  All others are floating-point numbers, and so is `-0`, whose sign would be lost otherwise.
Their digits are taken up from the left for as long as they fit into 64 bits; the others count only by
their place.  The number so found is scaled by a power of ten in one step of arithmetic, or in several
when the power itself is not in the range of the format, and every step rounds.
-/

namespace FieldMask.Json

open Decimal (Binary64)

def isDigit (c : Char) : Bool :=
  '0' ≤ c && c ≤ '9'

/-- The parts of a numeral; digits are kept as written. -/
structure Numeral where
  negative : Bool
  whole : List Char
  fraction : List Char
  exponent : Option Int
  deriving DecidableEq, Repr

namespace Numeral

/-! ## Taking a numeral off the front of a text -/

def digitsValue (digits : List Char) : Nat :=
  digits.foldl (fun value digit => 10 * value + (digit.toNat - '0'.toNat)) 0

/-- The digits at the front of a text and what follows them. -/
def spanDigits (text : List Char) : List Char × List Char :=
  (text.takeWhile isDigit, text.dropWhile isDigit)

theorem length_dropWhile_le
    (p : Char → Bool) (text : List Char) :
    (text.dropWhile p).length ≤ text.length :=
  (List.dropWhile_sublist p).length_le

def someDigits (rules : Rules) (text : List Char) : Except Fault (List Char × List Char) :=
  match text with
  | [] => .error rules.cutNumber
  | c :: _ => if isDigit c then .ok (spanDigits text) else .error .malformed

/-- The whole digits: a zero by itself, or digits that begin with another. -/
def scanWhole (rules : Rules) (text : List Char) : Except Fault (List Char × List Char) :=
  match text with
  | '0' :: rest => if rest.head?.any isDigit then .error .malformed else .ok (['0'], rest)
  | _ => someDigits rules text

def scanFraction (rules : Rules) (text : List Char) : Except Fault (List Char × List Char) :=
  match text with
  | '.' :: rest => someDigits rules rest
  | _ => .ok ([], text)

/-- The sign of an exponent and what follows it. -/
def exponentSign (text : List Char) : Int × List Char :=
  match text with
  | '+' :: rest => (1, rest)
  | '-' :: rest => (-1, rest)
  | _ => (1, text)

def scanExponent (rules : Rules) (text : List Char) : Except Fault (Option Int × List Char) :=
  match text with
  | [] => .ok (none, [])
  | c :: rest =>
    if c = 'e' ∨ c = 'E' then
      (someDigits rules (exponentSign rest).2).map fun (digits, rest') =>
        (some ((exponentSign rest).1 * digitsValue digits), rest')
    else
      .ok (none, text)

def sign (text : List Char) : Bool × List Char :=
  match text with
  | '-' :: rest => (true, rest)
  | _ => (false, text)

/-- The numeral at the front of a text that begins with a sign or a digit. -/
def scan (rules : Rules) (text : List Char) : Except Fault (Numeral × List Char) :=
  match scanWhole rules (sign text).2 with
  | .error fault => .error fault
  | .ok (whole, afterWhole) =>
    match scanFraction rules afterWhole with
    | .error fault => .error fault
    | .ok (fraction, afterFraction) =>
      (scanExponent rules afterFraction).map fun (exponent, rest) =>
        (⟨(sign text).1, whole, fraction, exponent⟩, rest)

theorem length_someDigits_lt
    {rules : Rules} {text digits rest : List Char}
    (h : someDigits rules text = .ok (digits, rest)) :
    rest.length < text.length := by
  unfold someDigits at h
  split at h
  · simp at h
  · rename_i c tail
    split at h
    · rename_i hc
      simp only [spanDigits, Except.ok.injEq, Prod.mk.injEq] at h
      rw [← h.2, List.dropWhile_cons_of_pos hc, List.length_cons]
      exact Nat.lt_succ_of_le (length_dropWhile_le _ _)
    · simp at h

theorem length_scanWhole_lt
    {rules : Rules} {text digits rest : List Char}
    (h : scanWhole rules text = .ok (digits, rest)) :
    rest.length < text.length := by
  unfold scanWhole at h
  split at h
  · split at h
    · simp at h
    · simp only [Except.ok.injEq, Prod.mk.injEq] at h
      simp [← h.2]
  · exact length_someDigits_lt h

theorem length_scanFraction_le
    {rules : Rules} {text digits rest : List Char}
    (h : scanFraction rules text = .ok (digits, rest)) :
    rest.length ≤ text.length := by
  unfold scanFraction at h
  split at h
  · exact Nat.le_succ_of_le (Nat.le_of_lt (length_someDigits_lt h))
  · simp only [Except.ok.injEq, Prod.mk.injEq] at h
    exact Nat.le_of_eq (by rw [h.2])

theorem length_exponentSign_le
    (text : List Char) :
    (exponentSign text).2.length ≤ text.length := by
  unfold exponentSign
  split <;> simp

theorem length_scanExponent_le
    {rules : Rules} {text rest : List Char} {exponent : Option Int}
    (h : scanExponent rules text = .ok (exponent, rest)) :
    rest.length ≤ text.length := by
  unfold scanExponent at h
  split at h
  · simp_all
  · rename_i c tail
    split at h
    · cases hd : someDigits rules (exponentSign tail).2 with
      | error fault => simp [hd, Except.map] at h
      | ok found =>
        simp only [hd, Except.map, Except.ok.injEq, Prod.mk.injEq] at h
        have hfound : found.2.length < (exponentSign tail).2.length := length_someDigits_lt hd
        have htail := length_exponentSign_le tail
        rw [← h.2, List.length_cons]
        omega
    · simp only [Except.ok.injEq, Prod.mk.injEq] at h
      exact Nat.le_of_eq (congrArg List.length h.2.symm)

theorem length_sign_le
    (text : List Char) :
    (sign text).2.length ≤ text.length := by
  unfold sign
  split <;> simp

/-- A numeral takes something off the text. -/
theorem length_scan_lt
    {rules : Rules} {text rest : List Char} {numeral : Numeral}
    (h : scan rules text = .ok (numeral, rest)) :
    rest.length < text.length := by
  unfold scan at h
  split at h
  · simp at h
  · rename_i whole afterWhole hwhole
    split at h
    · simp at h
    · rename_i fraction afterFraction hfraction
      cases hexponent : scanExponent rules afterFraction with
      | error fault => simp [hexponent, Except.map] at h
      | ok found =>
        simp only [hexponent, Except.map, Except.ok.injEq, Prod.mk.injEq] at h
        have h₁ := length_sign_le text
        have h₂ := length_scanWhole_lt hwhole
        have h₃ := length_scanFraction_le hfraction
        have h₄ : found.2.length ≤ afterFraction.length := length_scanExponent_le hexponent
        rw [← h.2]
        omega

/-! ## What a numeral denotes -/

/-- The bound of the digits that are taken up. -/
def digitLimit : Nat :=
  Nat.pow 2 64

/-- The greatest magnitude of a negative integer. -/
def signedLimit : Nat :=
  Nat.pow 2 63

/-- Takes up digits while the number stays below the limit; the digits behind are left over. -/
def takeUp (value : Nat) : List Char → Nat × List Char
  | [] => (value, [])
  | digit :: rest =>
    let next := 10 * value + (digit.toNat - '0'.toNat)
    if next < digitLimit then takeUp next rest else (value, digit :: rest)

/-- The greatest exponent of a power of ten in the range of the format. -/
def maxPower : Nat :=
  308

/-- The magnitude of `10 ^ exponent`, for exponents up to `maxPower`. -/
def powerOfTen (exponent : Nat) : Nat :=
  Binary64.ofNat (Nat.pow 10 exponent)

/-- Divides by the greatest power of ten over and over, rounding each time. -/
def divideDown : Nat → Nat → Nat
  | 0, magnitude => magnitude
  | steps + 1, magnitude =>
    if magnitude = 0 then 0 else divideDown steps (Binary64.div magnitude (powerOfTen maxPower))

/-- A magnitude times a power of ten; nothing for a power out of range that would make it larger. -/
def scale? (magnitude : Nat) (exponent : Int) : Option Nat :=
  if magnitude = 0 then
    some 0
  else
    match exponent with
    | .ofNat power =>
      if power ≤ maxPower then some (Binary64.mul magnitude (powerOfTen power)) else none
    | .negSucc below =>
      let steps := below / maxPower
      some (Binary64.div (divideDown steps magnitude) (powerOfTen (below + 1 - maxPower * steps)))

/-- The number that a numeral denotes, unless it is too large. -/
def value? (numeral : Numeral) : Option Number :=
  let (whole, dropped) := takeUp 0 numeral.whole
  let isWhole := numeral.fraction.isEmpty && numeral.exponent.isNone && dropped.isEmpty
  if isWhole && !numeral.negative then
    some (.integer whole)
  else if isWhole && whole ≠ 0 && whole ≤ signedLimit then
    some (.integer (-whole))
  else
    let (digits, ignored) := takeUp whole numeral.fraction
    let places := numeral.fraction.length - ignored.length
    let exponent := (dropped.length : Int) - places + numeral.exponent.getD 0
    ((scale? (Binary64.ofNat digits) exponent).bind (Binary64.ofUnits? numeral.negative)).map .binary

end Numeral

end FieldMask.Json
