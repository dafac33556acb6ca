import FieldMask.Selector.Parser

/-!
# A machine that reads selectors

A parser says what each significant token makes of a reading.  A machine says how the reading is carried out.
It looks for the next token that is no blank, decides what the token means at the place where it stands, and
does both in loops: one over blanks, one over the closing parentheses of a run, and one over all the rest.
Every turn of a loop is a move of its own.

The open paths are on a stack, innermost first.  A move that wants a path when there is none, or leaves a group
when none is open, is impossible; a machine that has to make one is stuck.
-/

namespace FieldMask.Selector

/-- Where a machine decides about a token. -/
inductive Place where
  /-- A name comes next; at the very start the selector may end instead. -/
  | name (mayEnd : Bool)
  /-- Behind a name. -/
  | behindName
  /-- In front of a closing parenthesis: the head of the loop over a run of them. -/
  | closing
  /-- Behind a closing parenthesis: the end of a turn of that loop. -/
  | behindClosing
  deriving DecidableEq, Repr

/-- What a machine does next. -/
inductive Control where
  /-- Looks for a token that is no blank, to decide about it at a place. -/
  | seeking (place : Place)
  /-- Decides about the token that it has found. -/
  | deciding (place : Place)
  /-- Nothing: the reading is complete. -/
  | finished
  /-- Nothing: no selector has the token that it has found there. -/
  | failed
  deriving DecidableEq, Repr

/-- A reading in the course of being carried out. -/
structure Machine where
  control : Control
  /-- The open paths, innermost first. -/
  stack : List String
  /-- The number of open groups. -/
  depth : Nat
  /-- The last significant token found. -/
  current : Token
  /-- The kind of the significant token in front of it. -/
  previous : Kind
  /-- What has not been read yet. -/
  lexer : Lexer
  /-- The tokens asked for so far, in order. -/
  pulled : List Token
  /-- The fields completed so far, in order. -/
  fields : List Field
  deriving DecidableEq

namespace Machine

def start (source : String) : Machine where
  control := .seeking (.name true)
  stack := []
  depth := 0
  current := .endOfInput 0
  previous := .endOfInput
  lexer := .ofString source
  pulled := []
  fields := []

def seek (machine : Machine) (place : Place) : Machine :=
  { machine with control := .seeking place }

def finish (machine : Machine) : Machine :=
  { machine with control := .finished }

def fail (machine : Machine) : Machine :=
  { machine with control := .failed }

/-- Asks for one token, and passes over it if it is a blank. -/
def pull (machine : Machine) (place : Place) : Machine :=
  let (token, lexer) := machine.lexer.pull
  if token.kind = .whitespace then
    { machine with lexer, pulled := machine.pulled ++ [token] }
  else
    { machine with
      control := .deciding place
      current := token
      previous := machine.current.kind
      lexer
      pulled := machine.pulled ++ [token] }

/-- Takes the innermost path off the stack, as a field or for nothing. -/
def take? (machine : Machine) (asField : Bool) : Option Machine :=
  match machine.stack with
  | [] => none
  | path :: stack =>
    some { machine with
      stack
      fields := if asField then machine.fields ++ [Field.ofString path] else machine.fields }

/-- Puts the path of the current name on the stack.  With no path open it is the name alone.  In a group the
name begins a path on top of the group's path, which stays; behind a slash it takes the place of the path that
it continues. -/
def readName? (machine : Machine) : Option Machine :=
  if machine.stack.isEmpty then
    some { machine with stack := [machine.current.text] }
  else if 0 < machine.depth ∧ machine.previous ≠ .forwardSlash then
    machine.stack.head?.map fun base =>
      { machine with stack := (base ++ "/" ++ machine.current.text) :: machine.stack }
  else
    machine.stack.head?.map fun base =>
      { machine with stack := (base ++ "/" ++ machine.current.text) :: machine.stack.tail }

def leave? (machine : Machine) : Option Machine :=
  match machine.depth with
  | 0 => none
  | depth + 1 => some { machine with depth }

def decideName? (machine : Machine) (mayEnd : Bool) : Option Machine :=
  match machine.current.kind with
  | .endOfInput =>
    if mayEnd = true ∧ machine.depth = 0 then some machine.finish else some machine.fail
  | .identifier => machine.readName?.map (·.seek .behindName)
  | _ => some machine.fail

def decideBehindName? (machine : Machine) : Option Machine :=
  match machine.current.kind with
  | .forwardSlash => some (machine.seek (.name false))
  | .leftParen => some (seek { machine with depth := machine.depth + 1 } (.name false))
  | .rightParen => some { machine with control := .deciding .closing }
  | .comma => (machine.take? true).map (·.seek (.name false))
  | .endOfInput => if machine.depth = 0 then (machine.take? true).map finish else some machine.fail
  | _ => some machine.fail

/-- Closes a group.  Only the first parenthesis of a run stands behind a name, whose path it completes; the
others forget the path of the group that was closed before. -/
def decideClosing? (machine : Machine) : Option Machine :=
  (machine.take? (machine.previous == .identifier)).bind fun machine =>
    if machine.depth = 0 then some machine.fail else machine.leave?.map (·.seek .behindClosing)

/-- Decides behind a closing parenthesis: another one goes round the loop again. -/
def decideBehindClosing? (machine : Machine) : Option Machine :=
  match machine.current.kind with
  | .rightParen => some { machine with control := .deciding .closing }
  | .comma => (machine.take? false).map (·.seek (.name false))
  | .endOfInput => if machine.depth = 0 then some machine.finish else some machine.fail
  | _ => some machine.fail

/-- The machine after one move, unless it has halted or is stuck. -/
def move? (machine : Machine) : Option Machine :=
  match machine.control with
  | .seeking place => some (machine.pull place)
  | .deciding (.name mayEnd) => machine.decideName? mayEnd
  | .deciding .behindName => machine.decideBehindName?
  | .deciding .closing => machine.decideClosing?
  | .deciding .behindClosing => machine.decideBehindClosing?
  | .finished => none
  | .failed => none

/-- The machine after so many moves, if it can make them. -/
def after (machine : Machine) : Nat → Option Machine
  | 0 => some machine
  | count + 1 => (machine.after count).bind move?

/-- The reading that a machine has carried out when it has halted. -/
def reading? (machine : Machine) : Option Reading :=
  match machine.control with
  | .finished => some ⟨machine.pulled, .ok machine.fields⟩
  | .failed => some ⟨machine.pulled, .error ⟨machine.current⟩⟩
  | _ => none

end Machine

end FieldMask.Selector
