import FieldMask.Selector.Token

/-!
# Malformed selectors

A selector is malformed at the first token that no well-formed selector could have there.  The error is
that token, and its message quotes the token's text as it stands.
-/

namespace FieldMask.Selector

/-- The token that was not expected. -/
structure SyntaxError where
  token : Token
  deriving DecidableEq, Repr, Inhabited

namespace SyntaxError

/-- The name of the unexpected token in the message: its text in quotes, or words for the end. -/
def subject (error : SyntaxError) : String :=
  if error.token.isEnd then "end of input" else "'" ++ error.token.text ++ "'"

def message (error : SyntaxError) : String :=
  "unexpected " ++ error.subject ++ " at position " ++ toString error.token.position

end SyntaxError

end FieldMask.Selector
