import FieldMask.Json.Numeral
import FieldMask.Json.Quoted

/-!
# The parts of a JSON text

A JSON text is read from left to right with the containers that are still open kept in a list, the
innermost first.  A step skips blanks, looks at one character to see which of the things that may come
next is there, and takes it off the text: a bracket, a comma, a colon, a name, or a scalar value as a
whole.  So the first fault of a text is the one that is reported.

Every step makes the text shorter (`length_readStep_lt`).
-/

namespace FieldMask.Json

def isBlank (c : Char) : Bool :=
  c == ' ' || c == '\n' || c == '\t' || c == '\r'

def skipBlanks (text : List Char) : List Char :=
  text.dropWhile isBlank

/-- The first character of the next part of a text, which must not have ended, and what follows it. -/
def nextPart (text : List Char) : Except Fault (Char × List Char) :=
  match skipBlanks text with
  | [] => .error .truncated
  | c :: rest => .ok (c, rest)

def expectMark (mark : Char) (text : List Char) : Except Fault (List Char) :=
  match nextPart text with
  | .error fault => .error fault
  | .ok (c, rest) => if c = mark then .ok rest else .error .malformed

/-- A container that is still open. -/
inductive Frame where
  /-- An array with its items so far, the last one first. -/
  | array (items : List Json)
  /-- An object with its members so far, and the name of the next one. -/
  | object (members : List (String × Json)) (name : String)

/-- What may come next. -/
inductive Awaiting where
  | value
  /-- The first item of an array, or its end. -/
  | firstItem
  /-- The first name of an object, or its end. -/
  | firstName
  /-- Another name of an object with these members. -/
  | name (members : List (String × Json))
  | colon (members : List (String × Json)) (name : String)
  /-- Whatever follows the value, which is complete. -/
  | following (value : Json)

/-- A reading in progress; the object whose name or colon is awaited is not among the frames. -/
structure ReadState where
  frames : List Frame
  awaiting : Awaiting

abbrev Progress :=
  ReadState × List Char

def expectWord (word text : List Char) : Except Fault (List Char) :=
  match word, text with
  | [], text => .ok text
  | _ :: _, [] => .error .truncated
  | w :: word, c :: text => if w = c then expectWord word text else .error .malformed

/-- Whether one more container may be opened inside these. -/
def Rules.admitInside (rules : Rules) (frames : List Frame) : Bool :=
  rules.maxDepth.all (frames.length < ·)

/-- The value that begins with `c`.  A number whose meaning does not count is read as `null`. -/
def readValue (rules : Rules) (frames : List Frame) (c : Char) (rest : List Char) :
    Except Fault Progress :=
  let scalar (value : Json) (rest : List Char) : Progress := (⟨frames, .following value⟩, rest)
  if c = '[' then
    if rules.admitInside frames then .ok (⟨.array [] :: frames, .firstItem⟩, rest)
    else .error .malformed
  else if c = '\x7b' then
    if rules.admitInside frames then .ok (⟨frames, .firstName⟩, rest)
    else .error .malformed
  else if c = '"' then
    (Quoted.decode rules rest).map fun (text, rest) => scalar (.string (String.ofList text)) rest
  else if c = 't' then
    (expectWord ['r', 'u', 'e'] rest).map (scalar (.bool true))
  else if c = 'f' then
    (expectWord ['a', 'l', 's', 'e'] rest).map (scalar (.bool false))
  else if c = 'n' then
    (expectWord ['u', 'l', 'l'] rest).map (scalar .null)
  else if c = '-' ∨ isDigit c then
    match Numeral.scan rules (c :: rest) with
    | .error fault => .error fault
    | .ok (numeral, rest) =>
      match numeral.value?, rules.meaningful with
      | some found, true => .ok (scalar (.number found) rest)
      | none, true => .error .malformed
      | _, false => .ok (scalar .null rest)
  else
    .error .malformed

def readName (rules : Rules) (frames : List Frame) (members : List (String × Json)) (c : Char)
    (rest : List Char) : Except Fault Progress :=
  if c = '"' then
    (Quoted.decode rules rest).map fun (name, rest) =>
      (⟨frames, .colon members (String.ofList name)⟩, rest)
  else
    .error .malformed

/-- What follows a complete value inside a container: a comma, or the end of the container. -/
def readFollowing (frames : List Frame) (value : Json) (c : Char) (rest : List Char) :
    Except Fault Progress :=
  match frames with
  | .array items :: outer =>
    if c = ',' then .ok (⟨.array (value :: items) :: outer, .value⟩, rest)
    else if c = ']' then .ok (⟨outer, .following (.array (value :: items).reverse)⟩, rest)
    else .error .malformed
  | .object members name :: outer =>
    if c = ',' then .ok (⟨outer, .name (insert members name value)⟩, rest)
    else if c = '\x7d' then .ok (⟨outer, .following (.object (insert members name value))⟩, rest)
    else .error .malformed
  | [] => .error .malformed

def readPart (rules : Rules) (state : ReadState) (c : Char) (rest : List Char) :
    Except Fault Progress :=
  match state.awaiting with
  | .value => readValue rules state.frames c rest
  | .firstItem =>
    if c = ']' then .ok (⟨state.frames.tail, .following (.array [])⟩, rest)
    else readValue rules state.frames c rest
  | .firstName =>
    if c = '\x7d' then .ok (⟨state.frames, .following (.object [])⟩, rest)
    else readName rules state.frames [] c rest
  | .name members => readName rules state.frames members c rest
  | .colon members name =>
    if c = ':' then .ok (⟨.object members name :: state.frames, .value⟩, rest)
    else .error .malformed
  | .following value => readFollowing state.frames value c rest

def readStep (rules : Rules) (state : ReadState) (text : List Char) : Except Fault Progress :=
  match nextPart text with
  | .error fault => .error fault
  | .ok (c, rest) => readPart rules state c rest

/-! ## Every step makes the text shorter -/

theorem length_nextPart_lt
    {text rest : List Char} {c : Char} (h : nextPart text = .ok (c, rest)) :
    rest.length < text.length := by
  unfold nextPart at h
  split at h
  · simp at h
  · rename_i d tail htail
    have hblanks : (skipBlanks text).length ≤ text.length := (List.dropWhile_sublist _).length_le
    simp only [Except.ok.injEq, Prod.mk.injEq] at h
    rw [htail, h.2, List.length_cons] at hblanks
    exact hblanks

theorem length_expectMark_lt
    {mark : Char} {text rest : List Char} (h : expectMark mark text = .ok rest) :
    rest.length < text.length := by
  unfold expectMark at h
  split at h
  · simp at h
  · rename_i hpart
    split at h
    · simp only [Except.ok.injEq] at h
      exact h ▸ length_nextPart_lt hpart
    · simp at h

theorem length_expectWord_le
    {word text rest : List Char} (h : expectWord word text = .ok rest) :
    rest.length ≤ text.length := by
  fun_induction expectWord word text with
  | case1 => simp_all
  | case2 => simp at h
  | case3 w word text ih => exact Nat.le_succ_of_le (ih h)
  | case4 => simp at h

theorem length_snd_map_le
    {result : Except Fault α} {f : α → Progress} {progress : Progress} {bound : Nat}
    (h : result.map f = .ok progress) (hbound : ∀ a, result = .ok a → (f a).2.length ≤ bound) :
    progress.2.length ≤ bound := by
  cases result with
  | error fault => simp [Except.map] at h
  | ok a =>
    simp only [Except.map, Except.ok.injEq] at h
    exact h ▸ hbound a rfl

theorem length_readValue_le
    {rules : Rules} {frames : List Frame} {c : Char} {rest : List Char} {progress : Progress}
    (h : readValue rules frames c rest = .ok progress) :
    progress.2.length ≤ rest.length := by
  unfold readValue at h
  split at h
  · split at h <;> simp_all
    simp [← h]
  split at h
  · split at h <;> simp_all
    simp [← h]
  split at h
  · exact length_snd_map_le h fun a ha => Nat.le_of_lt (Quoted.length_decode_lt ha)
  split at h
  · exact length_snd_map_le h fun a ha => length_expectWord_le ha
  split at h
  · exact length_snd_map_le h fun a ha => length_expectWord_le ha
  split at h
  · exact length_snd_map_le h fun a ha => length_expectWord_le ha
  split at h
  · split at h
    · simp at h
    · rename_i hscan
      have := Numeral.length_scan_lt hscan
      simp only [List.length_cons] at this
      split at h <;> simp at h <;> simp only [← h] <;> omega
  · simp at h

theorem length_readName_le
    {rules : Rules} {frames : List Frame} {members : List (String × Json)} {c : Char}
    {rest : List Char} {progress : Progress}
    (h : readName rules frames members c rest = .ok progress) :
    progress.2.length ≤ rest.length := by
  unfold readName at h
  split at h
  · exact length_snd_map_le h fun a ha => Nat.le_of_lt (Quoted.length_decode_lt ha)
  · simp at h

theorem length_readFollowing_le
    {frames : List Frame} {value : Json} {c : Char} {rest : List Char} {progress : Progress}
    (h : readFollowing frames value c rest = .ok progress) :
    progress.2.length ≤ rest.length := by
  unfold readFollowing at h
  split at h
  · split at h
    · simp at h
      simp [← h]
    · split at h <;> simp at h
      simp [← h]
  · split at h
    · simp at h
      simp [← h]
    · split at h <;> simp at h
      simp [← h]
  · simp at h

theorem length_readPart_le
    {rules : Rules} {state : ReadState} {c : Char} {rest : List Char} {progress : Progress}
    (h : readPart rules state c rest = .ok progress) :
    progress.2.length ≤ rest.length := by
  unfold readPart at h
  split at h
  · exact length_readValue_le h
  · split at h
    · simp at h
      simp [← h]
    · exact length_readValue_le h
  · split at h
    · simp at h
      simp [← h]
    · exact length_readName_le h
  · exact length_readName_le h
  · split at h <;> simp at h
    simp [← h]
  · exact length_readFollowing_le h

theorem length_readStep_lt
    {rules : Rules} {state next : ReadState} {text rest : List Char}
    (h : readStep rules state text = .ok (next, rest)) :
    rest.length < text.length := by
  unfold readStep at h
  split at h
  · simp at h
  · rename_i hpart
    exact Nat.lt_of_le_of_lt (length_readPart_le h) (length_nextPart_lt hpart)

end FieldMask.Json
