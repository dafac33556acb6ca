/-!
# Tokens of the selector language

A selector such as `id,developer(name),characters/*` is made of names, four one-character delimiters
and blanks.  A token carries the text it covers, its kind, and the number of characters before it, so
that an error can point at it.  The end of the text is a token of its own, with an empty text.
-/

namespace FieldMask.Selector

/-- The kinds of token.  A blank is a run of spaces, tabs, carriage returns and line feeds; a name is a
run of characters that are neither blank nor a delimiter. -/
inductive Kind where
  | identifier
  | forwardSlash
  | leftParen
  | rightParen
  | comma
  | whitespace
  | endOfInput
  deriving DecidableEq, Repr, Inhabited

namespace Kind

/-- The words for a kind in an error report. -/
def description : Kind → String
  | identifier => "identifier"
  | forwardSlash => "forward slash"
  | leftParen => "left parenthesis"
  | rightParen => "right parenthesis"
  | comma => "comma"
  | whitespace => "whitespace"
  | endOfInput => "end of input"

/-- The kind of a character that is a token by itself. -/
def ofDelimiter? : Char → Option Kind
  | '/' => some forwardSlash
  | '(' => some leftParen
  | ')' => some rightParen
  | ',' => some comma
  | _ => none

theorem ofDelimiter?_ne_endOfInput
    {c : Char} {kind : Kind} (h : ofDelimiter? c = some kind) :
    kind ≠ .endOfInput := by
  unfold ofDelimiter? at h
  split at h <;> simp_all <;> subst h <;> decide

end Kind

/-- A blank separates tokens and means nothing else. -/
def isBlank (c : Char) : Bool :=
  c == ' ' || c == '\t' || c == '\r' || c == '\n'

def isNameChar (c : Char) : Bool :=
  (Kind.ofDelimiter? c).isNone && !isBlank c

theorem isNameChar_iff
    (c : Char) :
    isNameChar c = true ↔ c ∉ ['/', '(', ')', ',', ' ', '\t', '\r', '\n'] := by
  unfold isNameChar Kind.ofDelimiter?
  split <;> simp_all [isBlank, and_assoc]

/-- A piece of a selector.  Its position counts characters from the start of the selector. -/
structure Token where
  text : String
  kind : Kind
  position : Nat
  deriving DecidableEq, Repr, Inhabited

namespace Token

/-- The token that stands for the end of a text of `position` characters. -/
def endOfInput (position : Nat) : Token :=
  ⟨"", .endOfInput, position⟩

def isEnd (token : Token) : Bool :=
  token.kind == .endOfInput

@[simp]
theorem isEnd_iff
    (token : Token) :
    token.isEnd = true ↔ token.kind = .endOfInput := by
  simp [isEnd]

end Token

end FieldMask.Selector
