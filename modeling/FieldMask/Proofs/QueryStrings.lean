import FieldMask.Proofs.Text.Utf8
import FieldMask.Request

/-!
# Spellings of query strings

A character of a name or value can be written as itself, unless it has a meaning of its own in a query
string, or as the escapes of its bytes; a space can also be written as a plus sign.  Any number of ampersands
can stand around the pairs, and a question mark in front of them all.

However a list of pairs is spelled, its pairs are read back (`pairs_of_spells`): escapes give the bytes of the
text, whose UTF-8 form is read as the text, and no spelling of a name or value has an ampersand or an equals
sign.  So a request holds the selector that was sent.
-/

namespace FieldMask.Query

open Text (hexValue?)

/-! ## Spellings -/

/-- Whether a character is the hexadecimal digit for a number, in either case. -/
def IsDigit (value : Nat) (c : Char) : Prop :=
  c = Nat.digitChar value ∨ c = (Nat.digitChar value).toUpper

/-- Whether a character means itself in a name or value. -/
def IsPlain (c : Char) : Prop :=
  c ≠ '%' ∧ c ≠ '+' ∧ c ≠ '&' ∧ c ≠ '='

instance (c : Char) : Decidable (IsPlain c) :=
  inferInstanceAs (Decidable (_ ∧ _))

/-- The ways to write bytes as escapes. -/
inductive Escapes : List UInt8 → List Char → Prop
  | nil : Escapes [] []
  | cons {byte : UInt8} {high low : Char} {bytes : List UInt8} {text : List Char}
      (hhigh : IsDigit (byte.toNat / 16) high) (hlow : IsDigit (byte.toNat % 16) low)
      (h : Escapes bytes text) : Escapes (byte :: bytes) ('%' :: high :: low :: text)

/-- The ways to write a character. -/
inductive SpellsChar : Char → List Char → Prop
  | plain {c : Char} (h : IsPlain c) : SpellsChar c [c]
  | plus : SpellsChar ' ' ['+']
  | escaped {c : Char} {text : List Char} (h : Escapes (String.utf8EncodeChar c) text) :
      SpellsChar c text

inductive SpellsText : List Char → List Char → Prop
  | nil : SpellsText [] []
  | cons {c : Char} {chars front text : List Char} (hchar : SpellsChar c front)
      (h : SpellsText chars text) : SpellsText (c :: chars) (front ++ text)

inductive SpellsPair : String × String → List Char → Prop
  | mk {name value : String} {front text : List Char} (hname : SpellsText name.toList front)
      (hvalue : SpellsText value.toList text) : SpellsPair (name, value) (front ++ '=' :: text)

/-- The ways to write a list of pairs, with any number of ampersands around each. -/
inductive SpellsPairs : List (String × String) → List Char → Prop
  | nil : SpellsPairs [] []
  | ampersand {pairs : List (String × String)} {text : List Char} (h : SpellsPairs pairs text) :
      SpellsPairs pairs ('&' :: text)
  | last {pair : String × String} {piece : List Char} (h : SpellsPair pair piece) :
      SpellsPairs [pair] piece
  | cons {pair : String × String} {piece : List Char} {pairs : List (String × String)}
      {text : List Char} (hpair : SpellsPair pair piece) (h : SpellsPairs pairs text) :
      SpellsPairs (pair :: pairs) (piece ++ '&' :: text)

/-- The ways to write a query string: the question mark in front may be left out unless another one would
then be taken for it. -/
inductive Spells (pairs : List (String × String)) : List Char → Prop
  | bare {text : List Char} (h : SpellsPairs pairs text) (hmark : text.head? ≠ some '?') :
      Spells pairs text
  | marked {text : List Char} (h : SpellsPairs pairs text) : Spells pairs ('?' :: text)

/-! ## Names and values -/

/-- A digit is read as its number, and means itself in a name or value. -/
theorem IsDigit.hexValue?_and_isPlain
    {value : Nat} {c : Char} (h : IsDigit value c) (hvalue : value < 16) :
    hexValue? c = some value ∧ IsPlain c := by
  have hlower : ∀ value < 16,
      hexValue? (Nat.digitChar value) = some value ∧ IsPlain (Nat.digitChar value) := by
    decide
  have hupper : ∀ value < 16, hexValue? (Nat.digitChar value).toUpper = some value ∧
      IsPlain (Nat.digitChar value).toUpper := by
    decide
  rcases h with rfl | rfl
  · exact hlower value hvalue
  · exact hupper value hvalue

/-- Escapes stand for their bytes. -/
theorem bytes_escapes_append
    {escaped : List UInt8} {text : List Char} (h : Escapes escaped text) (rest : List Char) :
    bytes (text ++ rest) = escaped ++ bytes rest := by
  induction h with
  | nil => rfl
  | @cons byte high low escaped text hhigh hlow h ih =>
      have hbyte : byte.toNat < 256 := byte.toNat_lt
      have hhigh' := (hhigh.hexValue?_and_isPlain (by omega)).1
      have hlow' := (hlow.hexValue?_and_isPlain (by omega)).1
      have hsplit : 16 * (byte.toNat / 16) + byte.toNat % 16 = byte.toNat := by omega
      simp only [List.cons_append, bytes, hhigh', hlow', hsplit, UInt8.ofNat_toNat, ih]

theorem bytes_spellsChar_append
    {c : Char} {text : List Char} (h : SpellsChar c text) (rest : List Char) :
    bytes (text ++ rest) = String.utf8EncodeChar c ++ bytes rest := by
  cases h with
  | plain hplain =>
      rw [List.singleton_append, bytes]
      · exact hplain.2.1
      · intro a b others hpercent
        exact absurd hpercent hplain.1
  | plus => rfl
  | escaped hescapes => exact bytes_escapes_append hescapes rest

theorem bytes_of_spellsText
    {chars text : List Char} (h : SpellsText chars text) :
    bytes text = Text.Utf8.encode chars := by
  induction h with
  | nil => rfl
  | cons hchar h ih =>
      rw [bytes_spellsChar_append hchar, ih]
      rfl

/-- However a name or value is spelled, it is read back. -/
theorem decode_of_spellsText
    {component : String} {text : List Char} (h : SpellsText component.toList text) :
    decode text = component := by
  rw [decode, bytes_of_spellsText h, Text.Utf8.decode_encode, String.ofList_toList]

theorem notMem_of_escapes
    {escaped : List UInt8} {text : List Char} (h : Escapes escaped text) :
    '&' ∉ text ∧ '=' ∉ text := by
  induction h with
  | nil => simp
  | @cons byte high low escaped text hhigh hlow h ih =>
      have hbyte : byte.toNat < 256 := byte.toNat_lt
      obtain ⟨-, -, -, hhigh, hhigh'⟩ := hhigh.hexValue?_and_isPlain (by omega)
      obtain ⟨-, -, -, hlow, hlow'⟩ := hlow.hexValue?_and_isPlain (by omega)
      simp [ih, hhigh.symm, hhigh'.symm, hlow.symm, hlow'.symm]

theorem notMem_of_spellsChar
    {c : Char} {text : List Char} (h : SpellsChar c text) :
    '&' ∉ text ∧ '=' ∉ text := by
  cases h with
  | plain hplain =>
      obtain ⟨-, -, hampersand, hequals⟩ := hplain
      simp [hampersand.symm, hequals.symm]
  | plus => decide
  | escaped hescapes => exact notMem_of_escapes hescapes

/-- The spelling of a name or value has no ampersand and no equals sign. -/
theorem notMem_of_spellsText
    {chars text : List Char} (h : SpellsText chars text) :
    '&' ∉ text ∧ '=' ∉ text := by
  induction h with
  | nil => simp
  | cons hchar h ih =>
      obtain ⟨hampersand, hequals⟩ := notMem_of_spellsChar hchar
      simp [ih, hampersand, hequals]

/-- A text of characters that mean themselves can be written as it is. -/
theorem spellsText_self
    {chars : List Char} (h : ∀ c ∈ chars, IsPlain c) :
    SpellsText chars chars := by
  induction chars with
  | nil => exact .nil
  | cons c chars ih =>
      rw [List.forall_mem_cons] at h
      exact .cons (.plain h.1) (ih h.2)

/-! ## Pairs -/

theorem pair_of_spellsPair
    {named : String × String} {piece : List Char} (h : SpellsPair named piece) :
    pair piece = named := by
  obtain @⟨name, value, front, text, hname, hvalue⟩ := h
  have hfront : ∀ c ∈ front, (c != '=') = true := by
    intro c hc
    rw [bne_iff_ne]
    rintro rfl
    exact (notMem_of_spellsText hname).2 hc
  have htake : (front ++ '=' :: text).takeWhile (· != '=') = front := by
    rw [List.takeWhile_append_of_pos hfront]
    simp
  have hdrop : (front ++ '=' :: text).dropWhile (· != '=') = '=' :: text := by
    rw [List.dropWhile_append_of_pos hfront]
    simp
  rw [pair, htake, hdrop, decode_of_spellsText hname]
  exact congrArg (name, ·) (decode_of_spellsText hvalue)

theorem ampersand_notMem_of_spellsPair
    {named : String × String} {piece : List Char} (h : SpellsPair named piece) :
    '&' ∉ piece := by
  obtain ⟨hname, hvalue⟩ := h
  simp [(notMem_of_spellsText hname).1, (notMem_of_spellsText hvalue).1]

theorem isEmpty_of_spellsPair
    {named : String × String} {piece : List Char} (h : SpellsPair named piece) :
    piece.isEmpty = false := by
  obtain ⟨hname, hvalue⟩ := h
  simp

/-- The pairs are read back from between the ampersands. -/
theorem map_pair_splitOn_of_spellsPairs
    {named : List (String × String)} {text : List Char} (h : SpellsPairs named text) :
    ((text.splitOn '&').filter (!·.isEmpty)).map pair = named := by
  induction h with
  | nil => rfl
  | @ampersand named text h ih =>
      have hsplit : ('&' :: text).splitOn '&' = [] :: text.splitOn '&' :=
        List.splitOn_append_cons_self [] text
      rw [hsplit]
      exact ih
  | @last first piece hpair =>
      rw [List.splitOn_eq_singleton (ampersand_notMem_of_spellsPair hpair)]
      simp [isEmpty_of_spellsPair hpair, pair_of_spellsPair hpair]
  | @cons first piece named text hpair h ih =>
      rw [List.splitOn_append_cons_self,
        List.splitOn_eq_singleton (ampersand_notMem_of_spellsPair hpair), List.singleton_append,
        List.filter_cons_of_pos (by simp [isEmpty_of_spellsPair hpair]), List.map_cons, ih,
        pair_of_spellsPair hpair]

/-- However a list of pairs is spelled, it is read back. -/
theorem pairs_of_spells
    {named : List (String × String)} {query : String} (h : Spells named query.toList) :
    pairs query = named := by
  have hbody : SpellsPairs named (body query.toList) := by
    generalize query.toList = text at h
    cases h with
    | bare hpairs hmark =>
        have hself : body text = text := by
          unfold body
          split
          · exact absurd rfl hmark
          · rfl
        rw [hself]
        exact hpairs
    | marked hpairs => exact hpairs
  exact map_pair_splitOn_of_spellsPairs hbody

/-! ## Selectors -/

/-- However a list of pairs is spelled, what is found under a name is the value of the first pair of that
name, unchanged, and nothing if there is no such pair.  This is the selector of the request when the options
name it. -/
theorem value?_of_spells
    {named : List (String × String)} {query : String} (h : Spells named query.toList)
    (name : String) :
    (∀ front value back, named = front ++ (name, value) :: back →
      (∀ other ∈ front, other.1 ≠ name) →
      value? query name = some value ∧
        ∀ options : Options, options.queryParameter = name →
          Request.ofQuery query options = { selector := some value, bypass := false }) ∧
    ((∀ other ∈ named, other.1 ≠ name) →
      value? query name = none ∧
        ∀ options : Options, options.queryParameter = name →
          Request.ofQuery query options = { selector := none, bypass := false }) := by
  have hvalue : value? query name = named.lookup name := by
    rw [value?, pairs_of_spells h]
  have hrequest (options : Options) (hname : options.queryParameter = name) :
      Request.ofQuery query options = { selector := named.lookup name, bypass := false } := by
    rw [Request.ofQuery, hname, hvalue]
  constructor
  · intro front value back hnamed hfront
    have hlookup : named.lookup name = some value := by
      rw [List.lookup_eq_some_iff]
      refine ⟨front, back, hnamed, ?_⟩
      intro other hother
      exact bne_iff_ne.mpr (hfront other hother).symm
    rw [hlookup] at hvalue hrequest
    exact ⟨hvalue, hrequest⟩
  · intro hnamed
    have hlookup : named.lookup name = none := by
      rw [List.lookup_eq_none_iff]
      intro other hother
      exact bne_iff_ne.mpr (hnamed other hother).symm
    rw [hlookup] at hvalue hrequest
    exact ⟨hvalue, hrequest⟩

theorem value?_of_spells_escapes :
    let named : List (String × String) := [("?", ""), ("f", "é +"), ("f", "x")]
    let query : String := "??=&&f=%c3%A9+%2b&f=x&"
    Spells named query.toList ∧ value? query "f" = some "é +" ∧ value? query "é" = none ∧
      Request.ofQuery query { queryParameter := "f" } = { selector := some "é +", bypass := false } := by
  intro named query
  have hmark : SpellsPair ("?", "") "?=".toList :=
    .mk (spellsText_self (by simp [IsPlain])) .nil
  have hvalue : SpellsText "é +".toList "%c3%A9+%2b".toList := by
    have hfirst : SpellsChar 'é' "%c3%A9".toList :=
      .escaped (.cons (.inl rfl) (.inl rfl) (.cons (.inr rfl) (.inl rfl) .nil))
    have hlast : SpellsChar '+' "%2b".toList :=
      .escaped (.cons (.inl rfl) (.inl rfl) .nil)
    exact .cons hfirst (.cons .plus (.cons hlast .nil))
  have hfirst : SpellsPair ("f", "é +") "f=%c3%A9+%2b".toList :=
    .mk (spellsText_self (by simp [IsPlain])) hvalue
  have hother : SpellsPair ("f", "x") "f=x".toList :=
    .mk (spellsText_self (by simp [IsPlain])) (spellsText_self (by simp [IsPlain]))
  have htext : query.toList = '?' :: ("?=".toList ++ '&' :: '&' :: ("f=%c3%A9+%2b".toList ++
      '&' :: ("f=x".toList ++ ['&']))) := by
    simp [query]
  have h : Spells named query.toList := by
    rw [htext]
    exact .marked (.cons hmark (.ampersand (.cons hfirst (.cons hother .nil))))
  obtain ⟨hfound, hrequest⟩ :=
    (value?_of_spells h "f").1 [("?", "")] "é +" [("f", "x")] rfl (by decide)
  exact ⟨h, hfound, ((value?_of_spells h "é").2 (by decide)).1, hrequest _ rfl⟩

end FieldMask.Query
