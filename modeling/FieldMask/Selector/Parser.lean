import FieldMask.Field
import FieldMask.Selector.Lexer
import FieldMask.Selector.SyntaxError

/-!
# Reading a selector

A selector is a list of paths with commas between them.  A path is a list of names with slashes between
them, and may end in a group: a selector in parentheses, each of whose paths continues the path in
front of it.  Blanks may stand between any two tokens.  So `a(b(c),d)` asks for `a/b/c` and `a/d`.

The parser reads one token at a time and keeps the paths that are still open, innermost first, together
with the number of groups around it.  Where a name must begin a new path there is one open path for
each group.  Everywhere else there is one more, the path that the last name belongs to.  After a closing
parenthesis that path belongs to the group just closed: it is dropped, since only a path that ends in a
name asks for anything.

The end token always settles the reading, so no token is asked for after it; every other token makes
the rest of the text shorter.
-/

namespace FieldMask.Selector

/-- What has just been read, and so what may come next. -/
inductive Stage where
  /-- Nothing yet: a name or the end. -/
  | start
  /-- A slash: a name that continues the innermost path. -/
  | slash
  /-- An opening parenthesis or a comma: a name that begins a path. -/
  | opening
  /-- A name: anything but another name. -/
  | name
  /-- A closing parenthesis: another one, a comma or the end. -/
  | closing
  deriving DecidableEq, Repr

/-- A reading in progress: the last significant token, the open paths and the number of open groups. -/
structure Parser where
  stage : Stage
  openPaths : List String
  depth : Nat
  deriving DecidableEq, Repr

/-- What the parser makes of a token. -/
inductive Step where
  /-- The reading goes on, perhaps with a field completed. -/
  | more (parser : Parser) (completed : Option Field)
  /-- The selector ends here, perhaps with a field completed. -/
  | finished (completed : Option Field)
  /-- No selector has this token here. -/
  | unexpected

namespace Parser

def initial : Parser :=
  ⟨.start, [], 0⟩

/-- The innermost path with one more name; a path of its own outside all groups. -/
def lengthened (parser : Parser) (name : String) : String :=
  Path.child (parser.openPaths.headD Path.root) name

def begin (parser : Parser) (name : String) : Parser :=
  { parser with stage := .name, openPaths := parser.lengthened name :: parser.openPaths }

/-- Continues the innermost path. -/
def extend (parser : Parser) (name : String) : Parser :=
  { parser with stage := .name, openPaths := parser.lengthened name :: parser.openPaths.tail }

def innermost? (parser : Parser) : Option Field :=
  parser.openPaths.head?.map Field.ofString

/-- Forgets the innermost path, behind which `stage` follows. -/
def dropPath (parser : Parser) (stage : Stage) : Parser :=
  { parser with stage, openPaths := parser.openPaths.tail }

/-- Leaves the innermost group and forgets the path that ended in it; there must be a group. -/
def close (parser : Parser) (completed : Option Field) : Step :=
  match parser.depth with
  | 0 => .unexpected
  | depth + 1 => .more { parser.dropPath .closing with depth } completed

def step (parser : Parser) (token : Token) : Step :=
  match parser.stage, token.kind with
  | _, .whitespace => .more parser none
  | .start, .endOfInput => .finished none
  | .start, .identifier => .more (parser.begin token.text) none
  | .opening, .identifier => .more (parser.begin token.text) none
  | .slash, .identifier => .more (parser.extend token.text) none
  | .name, .forwardSlash => .more { parser with stage := .slash } none
  | .name, .leftParen => .more { parser with stage := .opening, depth := parser.depth + 1 } none
  | .name, .rightParen => parser.close parser.innermost?
  | .name, .comma => .more (parser.dropPath .opening) parser.innermost?
  | .name, .endOfInput => if parser.depth = 0 then .finished parser.innermost? else .unexpected
  | .closing, .rightParen => parser.close none
  | .closing, .comma => .more (parser.dropPath .opening) none
  | .closing, .endOfInput => if parser.depth = 0 then .finished none else .unexpected
  | _, _ => .unexpected

/-- The end of the text settles every reading. -/
theorem step_ne_more_of_end
    (parser : Parser) {token : Token} (h : token.kind = .endOfInput)
    (next : Parser) (completed : Option Field) :
    parser.step token ≠ .more next completed := by
  unfold step
  rw [h]
  cases parser.stage <;> simp <;> split <;> simp

end Parser

/-- A completed reading: the tokens it asked for in order, and the fields or the token that was not
expected. -/
structure Reading where
  pulled : List Token
  result : Except SyntaxError (List Field)

namespace Reading

/-- A reading with one more token in front, which completed `field`. -/
def push (reading : Reading) (token : Token) (field : Option Field) : Reading :=
  ⟨token :: reading.pulled, reading.result.map (field.toList ++ ·)⟩

end Reading

namespace Parser

/-- Reads on until the selector is complete or a token is not expected. -/
def run (parser : Parser) (lexer : Lexer) : Reading :=
  match _ : parser.step lexer.pull.1 with
  | .more next completed => (next.run lexer.pull.2).push lexer.pull.1 completed
  | .finished completed => ⟨[lexer.pull.1], .ok completed.toList⟩
  | .unexpected => ⟨[lexer.pull.1], .error ⟨lexer.pull.1⟩⟩
termination_by lexer.rest.length
decreasing_by
  exact lexer.length_rest_pull_lt fun hend => parser.step_ne_more_of_end hend next completed ‹_›

end Parser

def read (source : String) : Reading :=
  Parser.initial.run (Lexer.ofString source)

end FieldMask.Selector
