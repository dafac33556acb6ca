import FieldMask.Json.Part

/-!
# Reading JSON texts

A value is read part by part until its outermost container is closed, which comes to an end because
every part makes the text shorter.  A value that is only passed over is read in the same way under looser
rules, and then forgotten.
-/

namespace FieldMask.Json

/-- Reads on until the outermost value is complete; gives that value and what follows it. -/
def readOn (rules : Rules) (state : ReadState) (text : List Char) :
    Except Fault (Json × List Char) :=
  match state with
  | ⟨[], .following value⟩ => .ok (value, text)
  | state =>
    match _ : readStep rules state text with
    | .error fault => .error fault
    | .ok (next, rest) => readOn rules next rest
termination_by text.length
decreasing_by exact length_readStep_lt ‹_›

/-- The value at the front of a text and what follows it. -/
def takeValue (rules : Rules) (text : List Char) : Except Fault (Json × List Char) :=
  readOn rules ⟨[], .value⟩ text

/-- Nothing but blanks may follow a text's value. -/
def expectEnd (text : List Char) : Except Fault Unit :=
  if (skipBlanks text).isEmpty then .ok () else .error .malformed

def read (text : String) : Except Fault Json :=
  match takeValue .keeping text.toList with
  | .error fault => .error fault
  | .ok (value, rest) => (expectEnd rest).map fun _ => value

theorem length_readOn_le
    {rules : Rules} {state : ReadState} {text rest : List Char} {value : Json}
    (h : readOn rules state text = .ok (value, rest)) :
    rest.length ≤ text.length := by
  fun_induction readOn rules state text with
  | case1 => simp_all
  | case2 => simp at h
  | case3 text state _ next after hstep ih =>
    exact Nat.le_trans (ih h) (Nat.le_of_lt (length_readStep_lt hstep))

/-- What follows the value at the front of a text, whatever that value says. -/
def skip (text : List Char) : Except Fault (List Char) :=
  (takeValue .skipping text).map Prod.snd

theorem length_skip_le
    {text rest : List Char} (h : skip text = .ok rest) :
    rest.length ≤ text.length := by
  unfold skip at h
  cases hvalue : takeValue .skipping text with
  | error fault => simp [hvalue, Except.map] at h
  | ok found =>
    simp only [hvalue, Except.map, Except.ok.injEq] at h
    exact h ▸ length_readOn_le hvalue

end FieldMask.Json
