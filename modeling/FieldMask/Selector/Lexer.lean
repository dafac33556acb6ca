import FieldMask.Selector.Token

/-!
# Cutting a selector into tokens

A lexer is what remains of the text together with the number of characters already read.  One pull cuts
the first token off.  A delimiter is one character long; names and blanks are as long as they can be.
At the end of the text every pull gives the end token and changes nothing, so a reader may look past
the end without harm.

Every other pull leaves a shorter text (`length_rest_pull_lt`), which is why reading a selector token by
token comes to an end.
-/

namespace FieldMask.Selector

/-- The kind and the characters of the first token of a text. -/
def lexeme : List Char → Kind × List Char
  | [] => (.endOfInput, [])
  | c :: rest =>
    match Kind.ofDelimiter? c with
    | some kind => (kind, [c])
    | none =>
      if isBlank c then
        (.whitespace, c :: rest.takeWhile isBlank)
      else
        (.identifier, c :: rest.takeWhile isNameChar)

theorem lexeme_kind_eq_endOfInput_iff
    (text : List Char) :
    (lexeme text).1 = .endOfInput ↔ text = [] := by
  cases text with
  | nil => simp [lexeme]
  | cons c rest =>
    simp only [lexeme, reduceCtorEq, iff_false]
    split
    · exact Kind.ofDelimiter?_ne_endOfInput ‹_›
    · split <;> simp

theorem lexeme_eq_nil_iff
    (text : List Char) :
    (lexeme text).2 = [] ↔ text = [] := by
  cases text with
  | nil => simp [lexeme]
  | cons c rest =>
    simp only [lexeme, reduceCtorEq, iff_false]
    split
    · simp
    · split <;> simp

/-- Nothing is lost: a token is what its text begins with. -/
theorem lexeme_append_drop
    (text : List Char) :
    (lexeme text).2 ++ text.drop (lexeme text).2.length = text := by
  have take_append (p : Char → Bool) (rest : List Char) :
      rest.takeWhile p ++ rest.drop (rest.takeWhile p).length = rest := by
    induction rest with
    | nil => rfl
    | cons d rest ih => by_cases hd : p d <;> simp [hd, ih]
  cases text with
  | nil => rfl
  | cons c rest =>
    simp only [lexeme]
    split
    · simp
    · split <;> simp [take_append]

/-- A text in the course of being cut into tokens. -/
structure Lexer where
  rest : List Char
  position : Nat
  deriving DecidableEq, Repr, Inhabited

namespace Lexer

def ofString (source : String) : Lexer :=
  ⟨source.toList, 0⟩

def pull (lexer : Lexer) : Token × Lexer :=
  let (kind, text) := lexeme lexer.rest
  (⟨String.ofList text, kind, lexer.position⟩,
    ⟨lexer.rest.drop text.length, lexer.position + text.length⟩)

@[simp]
theorem pull_kind
    (lexer : Lexer) :
    lexer.pull.1.kind = (lexeme lexer.rest).1 :=
  rfl

@[simp]
theorem pull_text
    (lexer : Lexer) :
    lexer.pull.1.text = String.ofList (lexeme lexer.rest).2 :=
  rfl

@[simp]
theorem pull_position
    (lexer : Lexer) :
    lexer.pull.1.position = lexer.position :=
  rfl

@[simp]
theorem rest_pull
    (lexer : Lexer) :
    lexer.pull.2.rest = lexer.rest.drop (lexeme lexer.rest).2.length :=
  rfl

theorem length_rest_pull_lt
    (lexer : Lexer) (h : lexer.pull.1.kind ≠ .endOfInput) :
    lexer.pull.2.rest.length < lexer.rest.length := by
  rw [pull_kind, ne_eq, lexeme_kind_eq_endOfInput_iff] at h
  have htext : 0 < (lexeme lexer.rest).2.length :=
    List.length_pos_iff.2 fun hnil => h ((lexeme_eq_nil_iff _).1 hnil)
  have hrest : 0 < lexer.rest.length := List.length_pos_iff.2 h
  rw [rest_pull, List.length_drop]
  omega

/-- The first token and the lexer behind it, or nothing at the end of the text. -/
def next? (lexer : Lexer) : Option (Token × Lexer) :=
  if lexer.pull.1.isEnd then none else some lexer.pull

/-- All remaining tokens without the end token, and the lexer at the end of the text. -/
def drain (lexer : Lexer) : List Token × Lexer :=
  if lexer.pull.1.kind = .endOfInput then
    ([], lexer)
  else
    let (tokens, last) := lexer.pull.2.drain
    (lexer.pull.1 :: tokens, last)
termination_by lexer.rest.length
decreasing_by exact lexer.length_rest_pull_lt ‹_›

def tokens (lexer : Lexer) : List Token :=
  lexer.drain.1

end Lexer

end FieldMask.Selector
