import FieldMask.Json.Grammar

/-!
# Reading back quoted strings

However a string is spelled, reading it gives its characters and stops behind the closing quote
(`decode_append_of_spells`).  Writing is one of the ways to spell it (`spells_flatMap_encodeChar`), so every
string is read back as it was written, whatever characters it has.
-/

namespace FieldMask.Json.Quoted

open Text (hexValue? hexDigits)

variable {rules : Rules}

/-! ## Reading -/

theorem codeUnit_append
    {unit : Nat} {digits : List Char} (h : SpellsUnit unit digits) (rest : List Char) :
    codeUnit (digits ++ rest) = .ok (unit, rest) := by
  obtain ⟨ha, hb, hc, hd⟩ := h
  simp [codeUnit, ha, hb, hc, hd]

theorem unicodeEscape_append
    {unit : Nat} {digits : List Char} (h : SpellsUnit unit digits)
    (hunit : unit < 0xD800 ∨ 0xDFFF < unit) (rest : List Char) :
    unicodeEscape rules (digits ++ rest) = .ok (Char.ofNat unit, rest) := by
  simp [unicodeEscape, codeUnit_append h, hunit]

theorem unicodeEscape_append_of_half
    {unit : Nat} {digits : List Char} (hmeaningful : rules.meaningful = false)
    (h : SpellsUnit unit digits) (hunit : 0xD800 ≤ unit ∧ unit ≤ 0xDFFF) (rest : List Char) :
    unicodeEscape rules (digits ++ rest) = .ok (Text.Utf8.replacement, rest) := by
  have hsurrogate : ¬(unit < 0xD800 ∨ 0xDFFF < unit) := by omega
  simp only [unicodeEscape, codeUnit_append h, if_neg hsurrogate, hmeaningful]
  rfl

theorem unicodeEscape_append_of_pair
    {high low : Nat} {digits others : List Char} (hmeaningful : rules.meaningful = true)
    (h : SpellsUnit high digits) (hhigh : 0xD800 ≤ high ∧ high < 0xDC00)
    (hothers : SpellsUnit low others) (hlow : 0xDC00 ≤ low ∧ low ≤ 0xDFFF) (rest : List Char) :
    unicodeEscape rules (digits ++ '\\' :: 'u' :: (others ++ rest)) =
      .ok (Char.ofNat (0x10000 + (high - 0xD800) * 0x400 + (low - 0xDC00)), rest) := by
  have hsurrogate : ¬(high < 0xD800 ∨ 0xDFFF < high) := by omega
  have hleading : ¬0xDC00 ≤ high := by omega
  have htrailing : trailingUnit ('\\' :: 'u' :: (others ++ rest)) = .ok (low, rest) := by
    simp only [trailingUnit, codeUnit_append hothers, if_pos hlow]
  simp only [unicodeEscape, codeUnit_append h, if_neg hsurrogate, if_neg hleading, hmeaningful,
    htrailing]
  rfl

/-- What stands for a character is read as that character. -/
theorem character_of_spellsChar
    {c : Char} {piece : List Char} (h : SpellsChar rules.meaningful c piece) :
    ∃ first tail, piece = first :: tail ∧ first ≠ '"' ∧
      ∀ rest, character rules first (tail ++ rest) = .ok (c, rest) := by
  cases h with
  | plain hquote hescape hcontrol =>
      refine ⟨c, [], rfl, hquote, fun rest => ?_⟩
      simp [character, hescape, hcontrol]
  | @letter letter _ hletter =>
      refine ⟨'\\', [letter], rfl, by decide, fun rest => ?_⟩
      have hu : letter ≠ 'u' := by
        rintro rfl
        simp [escaped?] at hletter
      simp [character, hletter]
  | @unit unit digits hunit hrange =>
      refine ⟨'\\', 'u' :: digits, rfl, by decide, fun rest => ?_⟩
      simpa [character] using unicodeEscape_append hunit hrange rest
  | @pair high low digits others hmeaningful hhigh hrange hlow hrange' =>
      refine ⟨'\\', 'u' :: digits ++ '\\' :: 'u' :: others, rfl, by decide, fun rest => ?_⟩
      simpa [character] using unicodeEscape_append_of_pair hmeaningful hhigh hrange hlow hrange' rest
  | @half unit digits hmeaningful hunit hrange =>
      refine ⟨'\\', 'u' :: digits, rfl, by decide, fun rest => ?_⟩
      simpa [character] using unicodeEscape_append_of_half hmeaningful hunit hrange rest

theorem decode_cons_of_character
    {first c : Char} {text rest : List Char} (hquote : first ≠ '"')
    (h : character rules first text = .ok (c, rest)) :
    decode rules (first :: text) =
      (decode rules rest).map fun (characters, rest) => (c :: characters, rest) := by
  rw [decode, if_neg hquote]
  split
  · simp_all
  · simp_all

/-- A string is read as what it spells, up to its closing quote. -/
theorem decode_append_of_spells
    {characters text : List Char} (h : Spells rules.meaningful characters text) (rest : List Char) :
    decode rules (text ++ '"' :: rest) = .ok (characters, rest) := by
  induction h with
  | nil => simp [decode]
  | @cons c piece characters text hpiece _ ih =>
      obtain ⟨first, tail, rfl, hquote, hread⟩ := character_of_spellsChar hpiece
      rw [List.append_assoc, List.cons_append, decode_cons_of_character hquote (hread _), ih]
      rfl

/-! ## Writing -/

theorem escaped?_of_shortEscape?
    {c letter : Char} (h : shortEscape? c = some letter) :
    escaped? letter = some c := by
  unfold shortEscape? at h
  split at h <;> simp_all <;> subst h <;> rfl

theorem spellsUnit_hexDigits
    {value : Nat} (h : value < 0x10000) :
    SpellsUnit value (hexDigits value) := by
  have hdigit : ∀ digit, digit < 16 → hexValue? (Nat.digitChar digit) = some digit := by decide
  have hvalue : value =
      ((value / 4096 % 16 * 16 + value / 256 % 16) * 16 + value / 16 % 16) * 16 + value % 16 := by
    omega
  have hunit := SpellsUnit.mk (hdigit (value / 4096 % 16) (by omega)) (hdigit (value / 256 % 16) (by omega))
    (hdigit (value / 16 % 16) (by omega)) (hdigit (value % 16) (by omega))
  rwa [← hvalue] at hunit

/-- Every character is written so that it spells itself. -/
theorem spellsChar_encodeChar
    (meaningful : Bool) (c : Char) :
    SpellsChar meaningful c (encodeChar c) := by
  unfold encodeChar
  split
  · rename_i letter hletter
    exact .letter (escaped?_of_shortEscape? hletter)
  · rename_i hplain
    by_cases hcontrol : isControl c = true
    · have hsmall : c.toNat < 0x20 := by simpa [isControl] using hcontrol
      have hunit : SpellsUnit c.toNat (hexDigits c.toNat) := spellsUnit_hexDigits (by omega)
      have hc : SpellsChar meaningful (Char.ofNat c.toNat) ('\\' :: 'u' :: hexDigits c.toNat) :=
        .unit hunit (by omega)
      rw [Char.ofNat_toNat] at hc
      rwa [if_pos hcontrol]
    · rw [if_neg hcontrol]
      apply SpellsChar.plain
      · rintro rfl
        simp [shortEscape?] at hplain
      · rintro rfl
        simp [shortEscape?] at hplain
      · simpa using hcontrol

theorem spells_flatMap_encodeChar
    (meaningful : Bool) (characters : List Char) :
    Spells meaningful characters (characters.flatMap encodeChar) := by
  induction characters with
  | nil => exact .nil
  | cons c characters ih => exact .cons (spellsChar_encodeChar meaningful c) ih

theorem toList_encode (text : String) :
    (encode text).toList = '"' :: (text.toList.flatMap encodeChar ++ ['"']) := by
  simp [encode]

/-- A string is written so that it spells itself. -/
theorem spellsScalar_encode (meaningful : Bool) (text : String) :
    SpellsScalar meaningful (.string text) (encode text).toList := by
  have hscalar := SpellsScalar.string (spells_flatMap_encodeChar meaningful text.toList)
  rwa [String.ofList_toList, ← toList_encode] at hscalar

/-- A name is written so that it spells itself. -/
theorem spellsMember_encode
    (meaningful : Bool) {value back : List Char} (h : Padded value back) (name : String) :
    SpellsMember meaningful name value ((encode name).toList ++ ':' :: back) := by
  refine ⟨_, _, back, spells_flatMap_encodeChar meaningful name.toList, padded_self _, h, ?_⟩
  rw [toList_encode]

end FieldMask.Json.Quoted
