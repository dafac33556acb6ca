import FieldMask.Json.Printer

/-!
# Options of a service

The options say how selectors are matched, which query parameter carries them, and how responses are laid
out.  As JSON they are an object with one member for each of them, in a fixed order.
-/

namespace FieldMask

/-- The settings that all responses of a service share. -/
structure Options where
  /-- Whether selectors match the names of properties up to case. -/
  ignoreCase : Bool := false
  /-- The name of the query parameter that holds the selector. -/
  queryParameter : String := "fields"
  /-- Whether responses are indented. -/
  pretty : Bool := false
  deriving DecidableEq, Repr, Inhabited

namespace Options

/-- The members of the options as JSON. -/
inductive Member where
  | ignoreCase
  | queryParameter
  | pretty
  deriving DecidableEq, Repr

namespace Member

def all : List Member :=
  [ignoreCase, queryParameter, pretty]

def name : Member → String
  | ignoreCase => "ignoreCase"
  | queryParameter => "queryParameter"
  | pretty => "pretty"

def ofName? (name : String) : Option Member :=
  all.find? (·.name == name)

@[simp]
theorem ofName?_name
    (member : Member) :
    ofName? member.name = some member := by
  cases member <;> decide

end Member

def get (options : Options) : Member → Json
  | .ignoreCase => .bool options.ignoreCase
  | .queryParameter => .string options.queryParameter
  | .pretty => .bool options.pretty

/-- The options with another value of a member, which must be of the right type. -/
def set? (options : Options) : Member → Json → Option Options
  | .ignoreCase, .bool value => some { options with ignoreCase := value }
  | .queryParameter, .string value => some { options with queryParameter := value }
  | .pretty, .bool value => some { options with pretty := value }
  | _, _ => none

def toJson (options : Options) : Json :=
  .object (Member.all.map fun member => (member.name, options.get member))

def text (options : Options) : String :=
  options.toJson.render .compact

end Options

end FieldMask
