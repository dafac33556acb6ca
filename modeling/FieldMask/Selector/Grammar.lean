import FieldMask.Selector.Token

/-!
# The grammar of selectors

A selector is a list of branches with commas between them.  A branch is a path of at least one name; it
may fan out into a group of branches, each of which continues the path.  What a selector asks for are
the ends of its branches, and the path of an end runs through all groups around it from the outside in.

The grammar says nothing about blanks: they may stand before, between and after its lexemes.
-/

namespace FieldMask.Selector

/-- A path of names, and the group that it fans out into; an empty group stands for none. -/
inductive Branch where
  | mk (first : String) (more : List String) (group : List Branch)

def IsName (text : String) : Prop :=
  text ≠ "" ∧ ∀ c ∈ text.toList, isNameChar c = true

mutual

def Branch.WellFormed : Branch → Prop
  | .mk first more group => (∀ name ∈ first :: more, IsName name) ∧ WellFormedAll group

def WellFormedAll : List Branch → Prop
  | [] => True
  | branch :: branches => branch.WellFormed ∧ WellFormedAll branches

end

mutual

/-- The paths of the ends of a branch that continues the path `above`. -/
def Branch.ends (above : List String) : Branch → List (List String)
  | .mk first more [] => [above ++ first :: more]
  | .mk first more (branch :: branches) => endsAll (above ++ first :: more) (branch :: branches)

def endsAll (above : List String) : List Branch → List (List String)
  | [] => []
  | branch :: branches => branch.ends above ++ endsAll above branches

end

/-- A significant token without its position. -/
abbrev Lexeme :=
  Kind × String

/-- The lexemes of a path: its names with slashes between them. -/
def pathLexemes (first : String) (more : List String) : List Lexeme :=
  (.identifier, first) :: more.flatMap fun name => [(.forwardSlash, "/"), (.identifier, name)]

mutual

def Branch.lexemes : Branch → List Lexeme
  | .mk first more [] => pathLexemes first more
  | .mk first more (branch :: branches) =>
    pathLexemes first more ++ (.leftParen, "(") :: lexemesAll [] (branch :: branches) ++
      [(.rightParen, ")")]

/-- The lexemes of branches with commas between them, the first of which follows `separator`. -/
def lexemesAll (separator : List Lexeme) : List Branch → List Lexeme
  | [] => []
  | branch :: branches => separator ++ branch.lexemes ++ lexemesAll [(.comma, ",")] branches

end

/-- A whole selector: at least one branch. -/
structure Selection where
  first : Branch
  others : List Branch

namespace Selection

def branches (selection : Selection) : List Branch :=
  selection.first :: selection.others

def WellFormed (selection : Selection) : Prop :=
  WellFormedAll selection.branches

/-- The paths that a selector asks for, from left to right. -/
def ends (selection : Selection) : List (List String) :=
  endsAll [] selection.branches

def lexemes (selection : Selection) : List Lexeme :=
  lexemesAll [] selection.branches

end Selection

end FieldMask.Selector
