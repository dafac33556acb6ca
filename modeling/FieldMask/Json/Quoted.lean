import FieldMask.Json.Fault
import FieldMask.Text.Hex
import FieldMask.Text.Utf8

/-!
# Quoted strings

`encode` writes a string between quotes and `decode` reads one back from behind its opening quote.  Only
quotes, backslashes and the control characters below the space have to be escaped, and only they are
when writing.  A text may escape more than that: any code unit of UTF-16 as four hexadecimal digits, and
then a character beyond the basic plane as the two halves of a surrogate pair.
-/

namespace FieldMask.Json.Quoted

open Text (hexValue? hexDigits)

/-! ## Writing -/

/-- The letter that stands for a character behind a backslash. -/
def shortEscape? : Char → Option Char
  | '"' => some '"'
  | '\\' => some '\\'
  | '\x08' => some 'b'
  | '\x0c' => some 'f'
  | '\n' => some 'n'
  | '\r' => some 'r'
  | '\t' => some 't'
  | _ => none

/-- Whether a character must not stand in a string by itself. -/
def isControl (c : Char) : Bool :=
  c.toNat < 0x20

def encodeChar (c : Char) : List Char :=
  match shortEscape? c with
  | some letter => ['\\', letter]
  | none => if isControl c then '\\' :: 'u' :: hexDigits c.toNat else [c]

/-- A string between quotes. -/
def encode (text : String) : String :=
  String.ofList ('"' :: (text.toList.flatMap encodeChar ++ ['"']))

/-! ## Reading -/

/-- The character that a letter stands for behind a backslash. -/
def escaped? : Char → Option Char
  | '"' => some '"'
  | '\\' => some '\\'
  | '/' => some '/'
  | 'b' => some '\x08'
  | 'f' => some '\x0c'
  | 'n' => some '\n'
  | 'r' => some '\r'
  | 't' => some '\t'
  | _ => none

/-- The code unit that four hexadecimal digits at the front of a text denote.  A text of fewer than four
bytes ends too early, whatever it holds. -/
def codeUnit (text : List Char) : Except Fault (Nat × List Char) :=
  match text with
  | a :: b :: c :: d :: rest =>
    match hexValue? a, hexValue? b, hexValue? c, hexValue? d with
    | some a, some b, some c, some d => .ok (((a * 16 + b) * 16 + c) * 16 + d, rest)
    | _, _, _, _ => .error .malformed
  | _ => .error (if (Text.Utf8.encode text).length < 4 then .truncated else .malformed)

/-- The second half of a surrogate pair, escaped like the first. -/
def trailingUnit (text : List Char) : Except Fault (Nat × List Char) :=
  match text with
  | '\\' :: 'u' :: rest =>
    match codeUnit rest with
    | .ok (unit, rest) =>
      if 0xDC00 ≤ unit ∧ unit ≤ 0xDFFF then .ok (unit, rest) else .error .malformed
    | .error fault => .error fault
  | [] | ['\\'] => .error .truncated
  | _ => .error .malformed

/-- The character that the code unit behind `\u` denotes, perhaps together with a second one.  Half a
surrogate pair denotes none; where that is let pass, a replacement stands for it. -/
def unicodeEscape (rules : Rules) (text : List Char) : Except Fault (Char × List Char) :=
  match codeUnit text with
  | .error fault => .error fault
  | .ok (unit, rest) =>
    if unit < 0xD800 ∨ 0xDFFF < unit then
      .ok (Char.ofNat unit, rest)
    else if !rules.meaningful then
      .ok (Text.Utf8.replacement, rest)
    else if 0xDC00 ≤ unit then
      .error .malformed
    else
      (trailingUnit rest).map fun (second, rest) =>
        (Char.ofNat (0x10000 + (unit - 0xD800) * 0x400 + (second - 0xDC00)), rest)

theorem length_codeUnit_le
    {text rest : List Char} {unit : Nat} (h : codeUnit text = .ok (unit, rest)) :
    rest.length ≤ text.length := by
  unfold codeUnit at h
  split at h
  · split at h
    · simp only [Except.ok.injEq, Prod.mk.injEq] at h
      rw [← h.2]
      simp only [List.length_cons]
      omega
    · simp at h
  · simp at h

theorem length_trailingUnit_le
    {text rest : List Char} {unit : Nat} (h : trailingUnit text = .ok (unit, rest)) :
    rest.length ≤ text.length := by
  unfold trailingUnit at h
  split at h
  · split at h
    · rename_i hunit
      split at h
      · simp only [Except.ok.injEq, Prod.mk.injEq] at h
        have := length_codeUnit_le hunit
        rw [← h.2]
        simp only [List.length_cons]
        omega
      · simp at h
    · simp at h
  · simp at h
  · simp at h
  · simp at h

theorem length_unicodeEscape_le
    {rules : Rules} {text rest : List Char} {c : Char}
    (h : unicodeEscape rules text = .ok (c, rest)) :
    rest.length ≤ text.length := by
  unfold unicodeEscape at h
  split at h
  · simp at h
  · rename_i unit afterUnit hunit
    have hafter := length_codeUnit_le hunit
    split at h
    · simp only [Except.ok.injEq, Prod.mk.injEq] at h
      exact h.2 ▸ hafter
    · split at h
      · simp only [Except.ok.injEq, Prod.mk.injEq] at h
        exact h.2 ▸ hafter
      · split at h
        · simp at h
        · cases htrailing : trailingUnit afterUnit with
          | error fault => simp [htrailing, Except.map] at h
          | ok found =>
            simp only [htrailing, Except.map, Except.ok.injEq, Prod.mk.injEq] at h
            have hfound : found.2.length ≤ afterUnit.length := length_trailingUnit_le htrailing
            rw [← h.2]
            omega

/-- One character of a string, and what follows it. -/
def character (rules : Rules) (c : Char) (rest : List Char) : Except Fault (Char × List Char) :=
  if c = '\\' then
    match rest with
    | [] => .error .truncated
    | 'u' :: rest => unicodeEscape rules rest
    | letter :: rest =>
      match escaped? letter with
      | some c => .ok (c, rest)
      | none => .error .malformed
  else if isControl c then
    .error .malformed
  else
    .ok (c, rest)

theorem length_character_le
    {rules : Rules} {c d : Char} {rest after : List Char}
    (h : character rules c rest = .ok (d, after)) :
    after.length ≤ rest.length := by
  unfold character at h
  split at h
  · split at h
    · simp at h
    · exact Nat.le_succ_of_le (length_unicodeEscape_le h)
    · split at h
      · simp only [Except.ok.injEq, Prod.mk.injEq] at h
        simp [← h.2]
      · simp at h
  · split at h
    · simp at h
    · simp only [Except.ok.injEq, Prod.mk.injEq] at h
      exact Nat.le_of_eq (by rw [h.2])

/-- The characters up to the closing quote, and what follows that. -/
def decode (rules : Rules) (text : List Char) : Except Fault (List Char × List Char) :=
  match text with
  | [] => .error .truncated
  | c :: rest =>
    if c = '"' then
      .ok ([], rest)
    else
      match _ : character rules c rest with
      | .error fault => .error fault
      | .ok (d, after) => (decode rules after).map fun (characters, rest) => (d :: characters, rest)
termination_by text.length
decreasing_by exact Nat.lt_succ_of_le (length_character_le ‹_›)

theorem length_decode_lt
    {rules : Rules} {text characters rest : List Char}
    (h : decode rules text = .ok (characters, rest)) :
    rest.length < text.length := by
  fun_induction decode rules text generalizing characters with
  | case1 => simp at h
  | case2 rest' =>
    simp only [Except.ok.injEq, Prod.mk.injEq] at h
    simp [← h.2]
  | case3 => simp at h
  | case4 c rest' hquote d after hcharacter ih =>
    cases hdecode : decode rules after with
    | error fault => simp [hdecode, Except.map] at h
    | ok found =>
      simp only [hdecode, Except.map, Except.ok.injEq, Prod.mk.injEq] at h
      have hfound : rest.length < after.length := @ih found.1 (by rw [hdecode, ← h.2])
      have hafter := length_character_le hcharacter
      simp only [List.length_cons]
      omega

end FieldMask.Json.Quoted
