/-!
# Bytes and characters

`encode` gives the UTF-8 form of a text, and `decode` reads bytes as UTF-8 whatever they are.  Where the
bytes are not well-formed, a replacement character stands for every longest part that begins like a
character and is then cut short, and for every other byte that cannot begin a character.

The first byte of a character says how many bytes follow and, for some characters, narrows the range of
the second byte: so the overlong forms, the surrogates and the numbers beyond the last character are
excluded as soon as the second byte is seen.
-/

namespace FieldMask.Text.Utf8

def encode (text : List Char) : List UInt8 :=
  text.flatMap String.utf8EncodeChar

@[simp]
theorem encode_nil :
    encode [] = [] :=
  rfl

@[simp]
theorem encode_append
    (a b : List Char) :
    encode (a ++ b) = encode a ++ encode b := by
  simp [encode]

/-- What stands for bytes that are not well-formed. -/
def replacement : Char :=
  '\uFFFD'

/-- A character that has begun: its number so far, and the bounds of each of the bytes that are still
to come. -/
structure Partial where
  value : Nat
  first : UInt8 × UInt8
  later : List (UInt8 × UInt8)
  deriving DecidableEq, Repr

/-- The bounds of a byte inside a character. -/
def continuation : UInt8 × UInt8 :=
  (0x80, 0xBF)

/-- What a first byte says, for a character of several bytes. -/
def begin? (byte : UInt8) : Option Partial :=
  let b := byte.toNat
  if 0xC2 ≤ b ∧ b ≤ 0xDF then some ⟨b % 0x20, continuation, []⟩
  else if b = 0xE0 then some ⟨0, (0xA0, 0xBF), [continuation]⟩
  else if b = 0xED then some ⟨0xD, (0x80, 0x9F), [continuation]⟩
  else if 0xE1 ≤ b ∧ b ≤ 0xEF then some ⟨b % 0x10, continuation, [continuation]⟩
  else if b = 0xF0 then some ⟨0, (0x90, 0xBF), [continuation, continuation]⟩
  else if 0xF1 ≤ b ∧ b ≤ 0xF3 then some ⟨b % 0x08, continuation, [continuation, continuation]⟩
  else if b = 0xF4 then some ⟨4, (0x80, 0x8F), [continuation, continuation]⟩
  else none

/-- A byte where no character has begun: the characters that are settled by it, and the one that it
begins. -/
def start (byte : UInt8) : List Char × Option Partial :=
  if byte.toNat < 0x80 then
    ([Char.ofNat byte.toNat], none)
  else
    match begin? byte with
    | some begun => ([], some begun)
    | none => ([replacement], none)

def step (begun : Option Partial) (byte : UInt8) : List Char × Option Partial :=
  match begun with
  | none => start byte
  | some begun =>
    if begun.first.1 ≤ byte ∧ byte ≤ begun.first.2 then
      let value := begun.value * 0x40 + byte.toNat % 0x40
      match begun.later with
      | [] => ([Char.ofNat value], none)
      | next :: later => ([], some ⟨value, next, later⟩)
    else
      let (settled, begun) := start byte
      (replacement :: settled, begun)

/-- The characters of the bytes, with a character that may have begun before them. -/
def decodeFrom (begun : Option Partial) : List UInt8 → List Char
  | [] => if begun.isSome then [replacement] else []
  | byte :: bytes => (step begun byte).1 ++ decodeFrom (step begun byte).2 bytes

def decode (bytes : List UInt8) : List Char :=
  decodeFrom none bytes

end FieldMask.Text.Utf8
