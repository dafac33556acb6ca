import FieldMask.Json.Grammar
import Mathlib.Data.List.TakeWhile

/-!
# Reading back numerals

A numeral that is spelled at the front of a text is taken off the text as a whole, with the parts that it
spells, as long as no character follows that a numeral could go on with (`scan_append_of_spells`).
-/

namespace FieldMask.Json.Numeral

/-- Whether a text does not begin with a character of a numeral. -/
def Stops (text : List Char) : Prop :=
  ∀ c ∈ text.head?, isDigit c = false ∧ c ≠ '.' ∧ c ≠ 'e' ∧ c ≠ 'E'

variable {rules : Rules} {digits text rest : List Char}

theorem spanDigits_append
    (hdigits : ∀ c ∈ digits, isDigit c = true) (hrest : ∀ c ∈ rest.head?, isDigit c = false) :
    spanDigits (digits ++ rest) = (digits, rest) := by
  have hstop : rest.takeWhile isDigit = [] ∧ rest.dropWhile isDigit = rest := by
    cases rest with
    | nil => simp
    | cons c rest => simp [hrest c rfl]
  rw [spanDigits, List.takeWhile_append_of_pos hdigits, List.dropWhile_append_of_pos hdigits, hstop.1,
    hstop.2, List.append_nil]

theorem someDigits_append
    (h : IsDigits digits) (hrest : ∀ c ∈ rest.head?, isDigit c = false) :
    someDigits rules (digits ++ rest) = .ok (digits, rest) := by
  obtain ⟨first, others, rfl⟩ := List.exists_cons_of_ne_nil h.1
  have hspan := spanDigits_append h.2 hrest
  rw [List.cons_append] at hspan ⊢
  rw [someDigits, if_pos (h.2 first List.mem_cons_self), hspan]

theorem scanWhole_append
    (h : IsDigits digits) (hzero : digits.head? = some '0' → digits = ['0'])
    (hrest : ∀ c ∈ rest.head?, isDigit c = false) :
    scanWhole rules (digits ++ rest) = .ok (digits, rest) := by
  by_cases hhead : digits.head? = some '0'
  · have hnone : rest.head?.any isDigit = false := by
      cases rest with
      | nil => rfl
      | cons c rest => simpa using hrest c rfl
    rw [hzero hhead]
    simp [scanWhole, hnone]
  · obtain ⟨first, others, rfl⟩ := List.exists_cons_of_ne_nil h.1
    have hfirst : first ≠ '0' := by simpa using hhead
    have hsome : scanWhole rules (first :: others ++ rest) =
        someDigits rules (first :: others ++ rest) := by
      rw [List.cons_append, scanWhole]
      simpa using hfirst
    rw [hsome, someDigits_append h hrest]

theorem scanFraction_append
    (h : SpellsFraction digits text) (hrest : ∀ c ∈ rest.head?, isDigit c = false ∧ c ≠ '.') :
    scanFraction rules (text ++ rest) = .ok (digits, rest) := by
  cases h with
  | absent =>
      cases rest with
      | nil => rfl
      | cons c rest =>
          have hpoint : c ≠ '.' := (hrest c rfl).2
          rw [List.nil_append, scanFraction]
          simpa using hpoint
  | present h => exact someDigits_append h fun c hc => (hrest c hc).1

theorem exponentSign_append
    {sign : Int} {signText : List Char} (hsign : SpellsSign sign signText) (h : IsDigits digits) :
    exponentSign (signText ++ (digits ++ rest)) = (sign, digits ++ rest) := by
  cases hsign with
  | plus | minus => rfl
  | absent =>
      obtain ⟨first, others, rfl⟩ := List.exists_cons_of_ne_nil h.1
      have hfirst : isDigit first = true := h.2 first List.mem_cons_self
      have hplus : first ≠ '+' := by
        rintro rfl
        cases hfirst
      have hminus : first ≠ '-' := by
        rintro rfl
        cases hfirst
      simp [exponentSign, hplus, hminus]

theorem scanExponent_append
    {exponent : Option Int} (h : SpellsExponent exponent text)
    (hrest : ∀ c ∈ rest.head?, isDigit c = false ∧ c ≠ 'e' ∧ c ≠ 'E') :
    scanExponent rules (text ++ rest) = .ok (exponent, rest) := by
  cases h with
  | absent =>
      cases rest with
      | nil => rfl
      | cons c rest =>
          have hmark : ¬(c = 'e' ∨ c = 'E') := by simpa using (hrest c rfl).2
          rw [List.nil_append, scanExponent, if_neg hmark]
  | @present _ _ _ digits hmark hsign h =>
      have hdigits : someDigits rules (digits ++ rest) = .ok (digits, rest) :=
        someDigits_append h fun c hc => (hrest c hc).1
      rw [List.cons_append, scanExponent, if_pos hmark, List.append_assoc, exponentSign_append hsign h,
        hdigits]
      rfl

theorem head?_fraction_append
    (h : SpellsFraction digits text) (hrest : ∀ c ∈ rest.head?, isDigit c = false) :
    ∀ c ∈ (text ++ rest).head?, isDigit c = false := by
  cases h with
  | absent => exact hrest
  | present => simp [isDigit]

theorem head?_exponent_append
    {exponent : Option Int} (h : SpellsExponent exponent text)
    (hrest : ∀ c ∈ rest.head?, isDigit c = false ∧ c ≠ '.') :
    ∀ c ∈ (text ++ rest).head?, isDigit c = false ∧ c ≠ '.' := by
  cases h with
  | absent => exact hrest
  | present hmark => rcases hmark with rfl | rfl <;> simp [isDigit]

/-- The sign of a numeral is read as it is spelled, since no digit is a sign. -/
theorem sign_append
    (negative : Bool) (h : IsDigits digits) :
    sign ((if negative then ['-'] else []) ++ (digits ++ rest)) = (negative, digits ++ rest) := by
  cases negative with
  | true => rfl
  | false =>
      obtain ⟨first, others, rfl⟩ := List.exists_cons_of_ne_nil h.1
      have hfirst : first ≠ '-' := by
        rintro rfl
        cases h.2 '-' List.mem_cons_self
      simp [sign, hfirst]

/-- A numeral is read as it is spelled. -/
theorem scan_append_of_spells
    {numeral : Numeral} (h : numeral.Spells text) (hrest : Stops rest) :
    scan rules (text ++ rest) = .ok (numeral, rest) := by
  cases h with
  | @mk negative whole fraction fractionText exponentText exponent hwhole hzero hfraction hexponent =>
      have hexponentHead := head?_exponent_append hexponent fun c hc =>
        ⟨(hrest c hc).1, (hrest c hc).2.1⟩
      have hfractionHead := head?_fraction_append hfraction fun c hc => (hexponentHead c hc).1
      have hread : scanExponent rules (exponentText ++ rest) = .ok (exponent, rest) :=
        scanExponent_append hexponent fun c hc => ⟨(hrest c hc).1, (hrest c hc).2.2⟩
      simp only [List.append_assoc]
      simp only [scan, sign_append negative hwhole, scanWhole_append hwhole hzero hfractionHead,
        scanFraction_append hfraction hexponentHead, hread]
      rfl

/-- A numeral begins with a sign or a digit. -/
theorem Spells.exists_cons
    {numeral : Numeral} (h : numeral.Spells text) :
    ∃ first others, text = first :: others ∧ (first = '-' ∨ isDigit first = true) := by
  cases h with
  | @mk negative whole _ _ _ _ hwhole =>
      obtain ⟨first, others, rfl⟩ := List.exists_cons_of_ne_nil hwhole.1
      cases negative with
      | true => exact ⟨_, _, rfl, Or.inl rfl⟩
      | false => exact ⟨_, _, rfl, Or.inr (hwhole.2 first List.mem_cons_self)⟩

end FieldMask.Json.Numeral
