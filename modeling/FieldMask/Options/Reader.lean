import FieldMask.Json.Reader
import FieldMask.Options.Basic

/-!
# Reading options

Options are read from an object or from an array.  In an object the members may come in any order; those
left out have their defaults, those of other names are passed over, and none of the three may come twice.
In an array the members come in their fixed order, and those at the end may be left out.

Faults are found from left to right.  A value of the wrong type is read to its end before its type is
objected to, unless it is a container.
-/

namespace FieldMask.Options

open Json (Fault)

/-- The scalar that begins with `c` and what follows it. -/
def scalar (c : Char) (rest : List Char) : Except Fault (Json × List Char) :=
  match Json.readValue .keeping [] c rest with
  | .error fault => .error fault
  | .ok (⟨_, .following value⟩, rest) => .ok (value, rest)
  | .ok _ => .error .mismatched

/-- The options with the value of a member from the front of a text. -/
def takeMember (options : Options) (member : Member) (text : List Char) :
    Except Fault (Options × List Char) :=
  match Json.nextPart text with
  | .error fault => .error fault
  | .ok (c, rest) =>
    match scalar c rest with
    | .error fault => .error fault
    | .ok (value, rest) =>
      match options.set? member value with
      | some options => .ok (options, rest)
      | none => .error .mismatched

theorem length_scalar_le
    {c : Char} {rest after : List Char} {value : Json} (h : scalar c rest = .ok (value, after)) :
    after.length ≤ rest.length := by
  unfold scalar at h
  split at h
  · simp at h
  · rename_i hvalue
    simp only [Except.ok.injEq, Prod.mk.injEq] at h
    exact h.2 ▸ Json.length_readValue_le hvalue
  · simp at h

theorem length_takeMember_lt
    {options updated : Options} {member : Member} {text rest : List Char}
    (h : takeMember options member text = .ok (updated, rest)) :
    rest.length < text.length := by
  unfold takeMember at h
  split at h
  · simp at h
  · rename_i hpart
    split at h
    · simp at h
    · rename_i hscalar
      split at h
      · simp only [Except.ok.injEq, Prod.mk.injEq] at h
        exact h.2 ▸ Nat.lt_of_le_of_lt (length_scalar_le hscalar) (Json.length_nextPart_lt hpart)
      · simp at h

/-! ## Arrays -/

/-- The rest of an array in which these members may still come. -/
def takeItems (options : Options) (first : Bool) :
    List Member → List Char → Except Fault (Options × List Char)
  | [], text => (Json.expectMark ']' text).map fun rest => (options, rest)
  | member :: members, text =>
    match Json.nextPart text with
    | .error fault => .error fault
    | .ok (c, rest) =>
      if c = ']' then
        .ok (options, rest)
      else if first || c = ',' then
        match options.takeMember member (if first then c :: rest else rest) with
        | .error fault => .error fault
        | .ok (options, rest) => takeItems options false members rest
      else
        .error .malformed

/-! ## Objects -/

/-- Whether an object has another member, and the text behind the opening quote of its name or behind
the end of the object. -/
def nextName (first : Bool) (text : List Char) : Except Fault (Bool × List Char) :=
  match Json.nextPart text with
  | .error fault => .error fault
  | .ok (c, rest) =>
    if c = '\x7d' then
      .ok (false, rest)
    else if first || c = ',' then
      (Json.expectMark '"' (if first then c :: rest else rest)).map fun rest => (true, rest)
    else
      .error .malformed

/-- The options read so far and the members that have been given. -/
structure Draft where
  options : Options
  given : List Member

def takeNamed (draft : Draft) (name : String) (text : List Char) :
    Except Fault (Draft × List Char) :=
  match Member.ofName? name with
  | some member =>
    if member ∈ draft.given then
      .error .mismatched
    else
      match Json.expectMark ':' text with
      | .error fault => .error fault
      | .ok rest =>
        (draft.options.takeMember member rest).map fun (options, rest) =>
          (⟨options, member :: draft.given⟩, rest)
  | none =>
    match Json.expectMark ':' text with
    | .error fault => .error fault
    | .ok rest => (Json.skip rest).map fun rest => (draft, rest)

theorem length_nextName_lt
    {first more : Bool} {text rest : List Char} (h : nextName first text = .ok (more, rest)) :
    rest.length < text.length := by
  unfold nextName at h
  split at h
  · simp at h
  · rename_i c tail hpart
    have htail := Json.length_nextPart_lt hpart
    split at h
    · simp only [Except.ok.injEq, Prod.mk.injEq] at h
      exact h.2 ▸ htail
    · split at h
      · cases hmark : Json.expectMark '"' (if first then c :: tail else tail) with
        | error fault => simp [hmark, Except.map] at h
        | ok found =>
          simp only [hmark, Except.map, Except.ok.injEq, Prod.mk.injEq] at h
          have hfound := Json.length_expectMark_lt hmark
          rw [h.2] at hfound
          split at hfound
          · rw [List.length_cons] at hfound
            omega
          · omega
      · simp at h

theorem length_takeNamed_lt
    {draft updated : Draft} {name : String} {text rest : List Char}
    (h : takeNamed draft name text = .ok (updated, rest)) :
    rest.length < text.length := by
  unfold takeNamed at h
  split at h
  · split at h
    · simp at h
    · split at h
      · simp at h
      · rename_i member _ _ _ afterColon hmark
        cases hmember : draft.options.takeMember member afterColon with
        | error fault => simp [hmember, Except.map] at h
        | ok found =>
          simp only [hmember, Except.map, Except.ok.injEq, Prod.mk.injEq] at h
          exact h.2 ▸ Nat.lt_trans (length_takeMember_lt hmember) (Json.length_expectMark_lt hmark)
  · split at h
    · simp at h
    · rename_i afterColon hmark
      cases hskip : Json.skip afterColon with
      | error fault => simp [hskip, Except.map] at h
      | ok found =>
        simp only [hskip, Except.map, Except.ok.injEq, Prod.mk.injEq] at h
        exact h.2 ▸ Nat.lt_of_le_of_lt (Json.length_skip_le hskip) (Json.length_expectMark_lt hmark)

def takeMembers (draft : Draft) (first : Bool) (text : List Char) :
    Except Fault (Options × List Char) :=
  match _ : nextName first text with
  | .error fault => .error fault
  | .ok (false, rest) => .ok (draft.options, rest)
  | .ok (true, rest) =>
    match _ : Json.Quoted.decode .keeping rest with
    | .error fault => .error fault
    | .ok (name, rest) =>
      match _ : takeNamed draft (String.ofList name) rest with
      | .error fault => .error fault
      | .ok (draft, rest) => takeMembers draft false rest
termination_by text.length
decreasing_by
  have h₁ := length_nextName_lt ‹nextName _ _ = _›
  have h₂ := Json.Quoted.length_decode_lt ‹Json.Quoted.decode _ _ = _›
  have h₃ := length_takeNamed_lt ‹takeNamed _ _ _ = _›
  omega

/-! ## Whole texts -/

/-- The options at the front of a text and what follows them. -/
def takeOptions (text : List Char) : Except Fault (Options × List Char) :=
  match Json.nextPart text with
  | .error fault => .error fault
  | .ok (c, rest) =>
    if c = '[' then
      takeItems {} true Member.all rest
    else if c = '\x7b' then
      takeMembers ⟨{}, []⟩ true rest
    else
      match scalar c rest with
      | .error fault => .error fault
      | .ok _ => .error .mismatched

def read (text : String) : Except Fault Options :=
  match takeOptions text.toList with
  | .error fault => .error fault
  | .ok (options, rest) => (Json.expectEnd rest).map fun _ => options

end FieldMask.Options
