import FieldMask.Json.Part

/-!
# The grammar of JSON texts

Which texts are JSON, and what the strings and numbers in them denote.  Blanks may stand around every value and
every name.  A string may spell a character in several ways, and an object may have several members of one name.

Where only the form of a text counts, an escape may be half of a surrogate pair, which denotes no character, and
a number may be out of range.
-/

namespace FieldMask.Json

def Blanks (text : List Char) : Prop :=
  ∀ c ∈ text, isBlank c = true

/-- Whether a text is another one with blanks around it. -/
def Padded (text padded : List Char) : Prop :=
  ∃ before after, Blanks before ∧ Blanks after ∧ padded = before ++ text ++ after

theorem blanks_nil : Blanks [] := by
  simp [Blanks]

theorem padded_self (text : List Char) :
    Padded text text :=
  ⟨[], [], blanks_nil, blanks_nil, by simp⟩

/-! ## Strings -/

namespace Quoted

open Text (hexValue?)

/-- Four hexadecimal digits that denote a code unit. -/
inductive SpellsUnit : Nat → List Char → Prop
  | mk {a b c d : Char} {w x y z : Nat} (ha : hexValue? a = some w) (hb : hexValue? b = some x)
      (hc : hexValue? c = some y) (hd : hexValue? d = some z) :
      SpellsUnit (((w * 16 + x) * 16 + y) * 16 + z) [a, b, c, d]

/-- The texts that stand for a character inside a string. -/
inductive SpellsChar (meaningful : Bool) : Char → List Char → Prop
  | plain {c : Char} (hquote : c ≠ '"') (hescape : c ≠ '\\') (hcontrol : isControl c = false) :
      SpellsChar meaningful c [c]
  | letter {letter c : Char} (h : escaped? letter = some c) :
      SpellsChar meaningful c ['\\', letter]
  | unit {unit : Nat} {digits : List Char} (h : SpellsUnit unit digits)
      (hunit : unit < 0xD800 ∨ 0xDFFF < unit) :
      SpellsChar meaningful (Char.ofNat unit) ('\\' :: 'u' :: digits)
  | pair {high low : Nat} {digits others : List Char} (hmeaningful : meaningful = true)
      (h : SpellsUnit high digits) (hhigh : 0xD800 ≤ high ∧ high < 0xDC00)
      (hothers : SpellsUnit low others) (hlow : 0xDC00 ≤ low ∧ low ≤ 0xDFFF) :
      SpellsChar meaningful (Char.ofNat (0x10000 + (high - 0xD800) * 0x400 + (low - 0xDC00)))
        ('\\' :: 'u' :: digits ++ '\\' :: 'u' :: others)
  | half {unit : Nat} {digits : List Char} (hmeaningful : meaningful = false)
      (h : SpellsUnit unit digits) (hunit : 0xD800 ≤ unit ∧ unit ≤ 0xDFFF) :
      SpellsChar meaningful Text.Utf8.replacement ('\\' :: 'u' :: digits)

/-- The texts that stand for several characters inside a string. -/
inductive Spells (meaningful : Bool) : List Char → List Char → Prop
  | nil : Spells meaningful [] []
  | cons {c : Char} {piece characters text : List Char} (hpiece : SpellsChar meaningful c piece)
      (h : Spells meaningful characters text) :
      Spells meaningful (c :: characters) (piece ++ text)

end Quoted

/-! ## Numbers -/

namespace Numeral

def IsDigits (text : List Char) : Prop :=
  text ≠ [] ∧ ∀ c ∈ text, isDigit c = true

/-- The texts of a fraction, from its digits. -/
inductive SpellsFraction : List Char → List Char → Prop
  | absent : SpellsFraction [] []
  | present {digits : List Char} (h : IsDigits digits) : SpellsFraction digits ('.' :: digits)

inductive SpellsSign : Int → List Char → Prop
  | absent : SpellsSign 1 []
  | plus : SpellsSign 1 ['+']
  | minus : SpellsSign (-1) ['-']

/-- The texts of an exponent. -/
inductive SpellsExponent : Option Int → List Char → Prop
  | absent : SpellsExponent none []
  | present {mark : Char} {sign : Int} {signText digits : List Char} (hmark : mark = 'e' ∨ mark = 'E')
      (hsign : SpellsSign sign signText) (h : IsDigits digits) :
      SpellsExponent (some (sign * digitsValue digits)) (mark :: (signText ++ digits))

/-- The texts of a numeral.  There is no zero in front of other whole digits. -/
inductive Spells : Numeral → List Char → Prop
  | mk {negative : Bool} {whole fraction fractionText exponentText : List Char} {exponent : Option Int}
      (hwhole : IsDigits whole) (hzero : whole.head? = some '0' → whole = ['0'])
      (hfraction : SpellsFraction fraction fractionText)
      (hexponent : SpellsExponent exponent exponentText) :
      Spells ⟨negative, whole, fraction, exponent⟩
        ((if negative then ['-'] else []) ++ whole ++ fractionText ++ exponentText)

end Numeral

/-! ## Values -/

/-- The texts of a value that is no container.  A number whose meaning does not count stands for `null`. -/
inductive SpellsScalar (meaningful : Bool) : Json → List Char → Prop
  | null : SpellsScalar meaningful .null ['n', 'u', 'l', 'l']
  | bool (value : Bool) :
      SpellsScalar meaningful (.bool value)
        (if value then ['t', 'r', 'u', 'e'] else ['f', 'a', 'l', 's', 'e'])
  | number {numeral : Numeral} {value : Number} {text : List Char} (hmeaningful : meaningful = true)
      (h : numeral.Spells text) (hvalue : numeral.value? = some value) :
      SpellsScalar meaningful (.number value) text
  | numeral {numeral : Numeral} {text : List Char} (hmeaningful : meaningful = false)
      (h : numeral.Spells text) :
      SpellsScalar meaningful .null text
  | string {characters text : List Char} (h : Quoted.Spells meaningful characters text) :
      SpellsScalar meaningful (.string (String.ofList characters)) ('"' :: (text ++ ['"']))

/-- The texts of a member of an object, from its name and the text of its value. -/
def SpellsMember (meaningful : Bool) (name : String) (value text : List Char) : Prop :=
  ∃ body front back, Quoted.Spells meaningful name.toList body ∧
    Padded ('"' :: (body ++ ['"'])) front ∧ Padded value back ∧ text = front ++ ':' :: back

/-- What a part of a JSON text can be. -/
inductive Category where
  | value
  /-- The items of an array that is not empty. -/
  | items
  /-- The members of an object that is not empty. -/
  | members
  deriving DecidableEq, Repr

/-- The texts of values, and of what stands between the brackets of containers. -/
inductive Derives (meaningful : Bool) : Category → List Char → Prop
  | scalar {value : Json} {text : List Char} (h : SpellsScalar meaningful value text) :
      Derives meaningful .value text
  | emptyArray {blanks : List Char} (h : Blanks blanks) :
      Derives meaningful .value ('[' :: (blanks ++ [']']))
  | array {text : List Char} (h : Derives meaningful .items text) :
      Derives meaningful .value ('[' :: (text ++ [']']))
  | emptyObject {blanks : List Char} (h : Blanks blanks) :
      Derives meaningful .value ('\x7b' :: (blanks ++ ['\x7d']))
  | object {text : List Char} (h : Derives meaningful .members text) :
      Derives meaningful .value ('\x7b' :: (text ++ ['\x7d']))
  | lastItem {value text : List Char} (hpadded : Padded value text) (h : Derives meaningful .value value) :
      Derives meaningful .items text
  | item {value text rest : List Char} (hpadded : Padded value text)
      (h : Derives meaningful .value value) (hrest : Derives meaningful .items rest) :
      Derives meaningful .items (text ++ ',' :: rest)
  | lastMember {name : String} {value text : List Char} (hmember : SpellsMember meaningful name value text)
      (h : Derives meaningful .value value) :
      Derives meaningful .members text
  | member {name : String} {value text rest : List Char}
      (hmember : SpellsMember meaningful name value text) (h : Derives meaningful .value value)
      (hrest : Derives meaningful .members rest) :
      Derives meaningful .members (text ++ ',' :: rest)

def IsValue (meaningful : Bool) (text : List Char) : Prop :=
  Derives meaningful .value text

/-! ## Objects with given members -/

/-- The texts of members, from their names and the texts of their values. -/
inductive SpellsMembers : List (String × List Char) → List Char → Prop
  | last {name : String} {value text : List Char} (h : SpellsMember true name value text) :
      SpellsMembers [(name, value)] text
  | cons {name : String} {value text rest : List Char} {members : List (String × List Char)}
      (h : SpellsMember true name value text) (hrest : SpellsMembers members rest) :
      SpellsMembers ((name, value) :: members) (text ++ ',' :: rest)

/-- The texts of an object, from the names of its members and the texts of their values. -/
inductive SpellsObject : List (String × List Char) → List Char → Prop
  | empty {blanks text : List Char} (h : Blanks blanks)
      (hpadded : Padded ('\x7b' :: (blanks ++ ['\x7d'])) text) :
      SpellsObject [] text
  | members {members : List (String × List Char)} {inside text : List Char}
      (h : SpellsMembers members inside) (hpadded : Padded ('\x7b' :: (inside ++ ['\x7d'])) text) :
      SpellsObject members text

end FieldMask.Json
