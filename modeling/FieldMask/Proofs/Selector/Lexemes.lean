import FieldMask.Proofs.Selector.Tokens
import FieldMask.Selector.Grammar
import Mathlib.Data.List.Chain

/-!
# Lexemes of a text

The lexemes of a text are its tokens without the blanks and without positions.  A text *spells* a list of
lexemes when it consists of them in order, with blanks anywhere around them.  Every text spells its own
lexemes (`Lexer.spells_lexemes`), and it spells no other list of well-formed lexemes in which names are
kept apart (`Lexer.lexemes_eq_of_spells`).
-/

namespace FieldMask.Selector

/-! ## Lexemes -/

def Token.lexeme (token : Token) : Lexeme :=
  (token.kind, token.text)

/-- Whether a lexeme is more than a blank. -/
def Lexeme.isSignificant (lexeme : Lexeme) : Bool :=
  lexeme.1 != .whitespace

/-- Whether a lexeme can stand for a token that is no blank. -/
def Lexeme.WellFormed (lexeme : Lexeme) : Prop :=
  lexeme.isSignificant = true ∧ lexeme.1.Fits lexeme.2.toList

/-- Whether two lexemes stay apart without a blank between them. -/
def Lexeme.KeptApart (first second : Lexeme) : Prop :=
  ¬(first.1 = .identifier ∧ second.1 = .identifier)

/-- Among the significant lexemes only names can go on. -/
theorem eq_identifier_of_continuedBy
    {lexeme : Lexeme} {c : Char} (hsignificant : lexeme.isSignificant = true)
    (h : lexeme.1.continuedBy c = true) :
    lexeme.1 = .identifier := by
  simp only [Kind.continuedBy, Bool.and_eq_true] at h
  simp only [Lexeme.isSignificant, bne_iff_ne] at hsignificant
  cases hkind : lexeme.1 <;> simp_all [Kind.isRun]

def Kind.symbol : Kind → String
  | .forwardSlash => "/"
  | .leftParen => "("
  | .rightParen => ")"
  | .comma => ","
  | .identifier | .whitespace | .endOfInput => ""

theorem ofList_singleton_eq_symbol
    {c : Char} (h : (kindOf c).isRun = false) :
    String.ofList [c] = (kindOf c).symbol := by
  cases hdelimiter : Kind.ofDelimiter? c with
  | none =>
      by_cases hblank : isBlank c = true <;> simp [kindOf, hdelimiter, hblank, Kind.isRun] at h
  | some kind =>
      have hkind : kindOf c = kind := by simp [kindOf, hdelimiter]
      rw [hkind]
      unfold Kind.ofDelimiter? at hdelimiter
      split at hdelimiter <;> simp_all <;> subst hdelimiter <;> rfl

theorem Lexeme.WellFormed.text_eq_symbol
    {kind : Kind} {text : String} (h : Lexeme.WellFormed (kind, text)) (hrun : kind.isRun = false) :
    text = kind.symbol := by
  obtain ⟨-, hne, hall, hlength⟩ := h
  have hone : text.toList.length = 1 := hlength.resolve_left (by simp [hrun])
  obtain ⟨c, hc⟩ := List.length_eq_one_iff.mp hone
  have hkind : kindOf c = kind := hall c (by simp [hc])
  have htext : text = String.ofList [c] := by rw [← hc, String.ofList_toList]
  subst hkind
  rw [htext, ofList_singleton_eq_symbol hrun]

theorem wellFormed_symbol
    {kind : Kind} (hrun : kind.isRun = false) (hend : kind ≠ .endOfInput) :
    Lexeme.WellFormed (kind, kind.symbol) := by
  cases kind <;> simp_all [Lexeme.WellFormed, Lexeme.isSignificant, Kind.Fits, Kind.isRun,
    Kind.symbol] <;> rfl

theorem wellFormed_identifier_iff
    (name : String) :
    Lexeme.WellFormed (.identifier, name) ↔ IsName name := by
  have hall : (∀ c ∈ name.toList, kindOf c = .identifier) ↔
      ∀ c ∈ name.toList, isNameChar c = true := by
    simp only [isNameChar_iff_kindOf]
  simp [Lexeme.WellFormed, Lexeme.isSignificant, Kind.Fits, Kind.isRun, IsName, hall]

namespace Lexer

/-- The significant lexemes of what remains. -/
def lexemes (lexer : Lexer) : List Lexeme :=
  (lexer.tokens.map Token.lexeme).filter Lexeme.isSignificant

theorem lexemes_of_rest_eq_nil
    {lexer : Lexer} (h : lexer.rest = []) :
    lexer.lexemes = [] := by
  simp [lexemes, tokens_of_rest_eq_nil h]

theorem lexemes_of_rest_ne_nil
    {lexer : Lexer} (h : lexer.rest ≠ []) :
    lexer.lexemes =
      if lexer.pull.1.lexeme.isSignificant then lexer.pull.1.lexeme :: lexer.pull.2.lexemes
      else lexer.pull.2.lexemes := by
  simp [lexemes, tokens_of_rest_ne_nil h, List.filter_cons]

/-- Where a text stands does not matter for its lexemes. -/
theorem lexemes_congr
    {lexer other : Lexer} (h : lexer.rest = other.rest) :
    lexer.lexemes = other.lexemes := by
  induction lexer using rest_induction generalizing other with
  | atEnd lexer hend =>
      rw [lexemes_of_rest_eq_nil hend, lexemes_of_rest_eq_nil (h ▸ hend)]
  | pull lexer hrest ih =>
      have htoken : lexer.pull.1.lexeme = other.pull.1.lexeme := by
        simp [Token.lexeme, h]
      have hbehind : lexer.pull.2.rest = other.pull.2.rest := by
        rw [rest_pull, rest_pull, h]
      have hother : other.rest ≠ [] := h ▸ hrest
      rw [lexemes_of_rest_ne_nil hrest, lexemes_of_rest_ne_nil hother, htoken, ih hbehind]

theorem wellFormed_of_mem_lexemes
    {lexer : Lexer} {lexeme : Lexeme} (h : lexeme ∈ lexer.lexemes) :
    lexeme.WellFormed := by
  obtain ⟨hmem, hsignificant⟩ := List.mem_filter.mp h
  obtain ⟨token, htoken, rfl⟩ := List.mem_map.mp hmem
  exact ⟨hsignificant, fits_of_mem_tokens htoken⟩

/-- A text that begins with a token has the lexeme of the token in front. -/
theorem lexemes_append_of_fits
    {kind : Kind} {text rest : List Char} (hfits : kind.Fits text)
    (hrest : ∀ c ∈ rest.head?, kind.continuedBy c = false) (position : Nat) :
    Lexer.lexemes ⟨text ++ rest, position⟩ =
      if Lexeme.isSignificant (kind, String.ofList text) then
        (kind, String.ofList text) :: Lexer.lexemes ⟨rest, position⟩
      else Lexer.lexemes ⟨rest, position⟩ := by
  have hlexeme := lexeme_append hfits hrest
  have hne : text ++ rest ≠ [] := by simp [hfits.1]
  have hbehind : (Lexer.mk (text ++ rest) position).pull.2.lexemes =
      Lexer.lexemes ⟨rest, position⟩ := by
    apply lexemes_congr
    rw [rest_pull, hlexeme, List.drop_left]
  have htoken : (Lexer.mk (text ++ rest) position).pull.1.lexeme = (kind, String.ofList text) := by
    simp [Token.lexeme, hlexeme]
  rw [lexemes_of_rest_ne_nil hne, hbehind, htoken]

theorem lexemes_dropWhile_isBlank
    (text : List Char) (position : Nat) :
    Lexer.lexemes ⟨text.dropWhile isBlank, position⟩ = Lexer.lexemes ⟨text, position⟩ := by
  by_cases hnil : text.takeWhile isBlank = []
  · have htext := List.takeWhile_append_dropWhile (p := isBlank) (l := text)
    rw [hnil, List.nil_append] at htext
    rw [htext]
  · have hfits : Kind.whitespace.Fits (text.takeWhile isBlank) := by
      refine ⟨hnil, ?_, Or.inl rfl⟩
      intro c hc
      exact (isBlank_iff_kindOf c).mp (List.mem_takeWhile_imp hc)
    have hstop : ∀ c ∈ (text.dropWhile isBlank).head?, Kind.whitespace.continuedBy c = false := by
      intro c hc
      have hhead := List.head?_dropWhile_not isBlank text
      rw [hc] at hhead
      rw [continuedBy_whitespace]
      simpa using hhead
    have happend := lexemes_append_of_fits hfits hstop position
    rw [List.takeWhile_append_dropWhile] at happend
    rw [happend, if_neg (by simp [Lexeme.isSignificant])]

/-- Blanks in front of a text do not matter. -/
theorem lexemes_blanks_append
    {blanks : List Char} (h : ∀ c ∈ blanks, isBlank c = true) (text : List Char)
    (position : Nat) :
    Lexer.lexemes ⟨blanks ++ text, position⟩ = Lexer.lexemes ⟨text, position⟩ := by
  rw [← lexemes_dropWhile_isBlank (blanks ++ text), List.dropWhile_append_of_pos h,
    lexemes_dropWhile_isBlank]

end Lexer

/-! ## Spelling -/

/-- The texts that consist of lexemes in order, with blanks anywhere around them. -/
inductive Spells : List Lexeme → List Char → Prop
  | nil {blanks : List Char} (hblanks : ∀ c ∈ blanks, isBlank c = true) : Spells [] blanks
  | cons {blanks : List Char} {lexeme : Lexeme} {lexemes : List Lexeme} {rest : List Char}
      (hblanks : ∀ c ∈ blanks, isBlank c = true) (h : Spells lexemes rest) :
      Spells (lexeme :: lexemes) (blanks ++ lexeme.2.toList ++ rest)

theorem Spells.blanks_append
    {lexemes : List Lexeme} {text blanks : List Char} (h : Spells lexemes text)
    (hblanks : ∀ c ∈ blanks, isBlank c = true) :
    Spells lexemes (blanks ++ text) := by
  cases h with
  | nil hmore =>
      apply Spells.nil
      intro c hc
      exact (List.mem_append.mp hc).elim (hblanks c) (hmore c)
  | @cons more lexeme lexemes rest hmore h =>
      rw [← List.append_assoc, ← List.append_assoc]
      apply Spells.cons _ h
      intro c hc
      exact (List.mem_append.mp hc).elim (hblanks c) (hmore c)

theorem Spells.append
    {lexemes others : List Lexeme} {text more : List Char} (h : Spells lexemes text)
    (hmore : Spells others more) :
    Spells (lexemes ++ others) (text ++ more) := by
  induction h with
  | nil hblanks => exact hmore.blanks_append hblanks
  | cons hblanks _ ih =>
      rw [List.append_assoc]
      exact Spells.cons hblanks ih

theorem spells_lexeme
    (lexeme : Lexeme) :
    Spells [lexeme] lexeme.2.toList := by
  have hnone : ∀ c ∈ ([] : List Char), isBlank c = true := by simp
  have h : Spells [lexeme] ([] ++ lexeme.2.toList ++ []) := .cons hnone (.nil hnone)
  simpa using h

/-- A text that spells well-formed lexemes begins with a blank or with its first lexeme. -/
theorem Spells.head?_cases
    {lexemes : List Lexeme} {text : List Char} (h : Spells lexemes text)
    (hwf : ∀ lexeme ∈ lexemes, lexeme.WellFormed) {c : Char} (hc : c ∈ text.head?) :
    kindOf c = .whitespace ∨ ∃ lexeme ∈ lexemes.head?, kindOf c = lexeme.1 := by
  cases h with
  | nil hblanks => exact Or.inl ((isBlank_iff_kindOf c).mp (hblanks c (List.mem_of_mem_head? hc)))
  | @cons blanks lexeme lexemes rest hblanks h =>
      cases blanks with
      | cons d blanks =>
          obtain rfl : d = c := by simpa using hc
          exact Or.inl ((isBlank_iff_kindOf d).mp (hblanks d List.mem_cons_self))
      | nil =>
          have hfits := (hwf lexeme List.mem_cons_self).2
          have hmem : c ∈ lexeme.2.toList := by
            apply List.mem_of_mem_head?
            rwa [List.nil_append, List.head?_append_of_ne_nil _ hfits.1] at hc
          exact Or.inr ⟨lexeme, rfl, hfits.2.1 c hmem⟩

namespace Lexer

/-- Every text spells its own lexemes. -/
theorem spells_lexemes
    (lexer : Lexer) :
    Spells lexer.lexemes lexer.rest := by
  induction lexer using rest_induction with
  | atEnd lexer hend =>
      rw [lexemes_of_rest_eq_nil hend, hend]
      exact Spells.nil (by simp)
  | pull lexer hrest ih =>
      have htext : lexer.pull.1.text.toList ++ lexer.pull.2.rest = lexer.rest := by
        rw [pull_text, String.toList_ofList, rest_pull, lexeme_append_drop]
      rw [lexemes_of_rest_ne_nil hrest, ← htext]
      split
      · exact (spells_lexeme lexer.pull.1.lexeme).append ih
      next hblank =>
        apply ih.blanks_append
        intro c hc
        have hkind : lexer.pull.1.kind = .whitespace := by
          simpa [Lexeme.isSignificant, Token.lexeme] using hblank
        rw [isBlank_iff_kindOf, ← hkind]
        exact (pull_fits hrest).2.1 c hc

/-- A text spells no well-formed lexemes but its own, as long as names are kept apart. -/
theorem lexemes_eq_of_spells
    {lexemes : List Lexeme} {text : List Char} (h : Spells lexemes text)
    (hwf : ∀ lexeme ∈ lexemes, lexeme.WellFormed) (hapart : lexemes.IsChain Lexeme.KeptApart)
    (position : Nat) :
    Lexer.lexemes ⟨text, position⟩ = lexemes := by
  induction h with
  | @nil blanks hblanks =>
      have happend := lexemes_blanks_append hblanks [] position
      rw [List.append_nil] at happend
      rw [happend, lexemes_of_rest_eq_nil rfl]
  | @cons blanks lexeme lexemes rest hblanks h ih =>
      have hrest := List.forall_mem_cons.mp hwf
      have hstop : ∀ c ∈ rest.head?, lexeme.1.continuedBy c = false := by
        intro c hc
        by_contra hcontinued
        rw [Bool.not_eq_false] at hcontinued
        have hkind := kindOf_of_continuedBy hcontinued
        have hname := eq_identifier_of_continuedBy hrest.1.1 hcontinued
        rcases h.head?_cases hrest.2 hc with hblank | ⟨next, hnext, hnextKind⟩
        · rw [hkind, hname] at hblank
          cases hblank
        · exact hapart.rel_head? hnext ⟨hname, by rw [← hnextKind, hkind, hname]⟩
      rw [List.append_assoc, lexemes_blanks_append hblanks,
        lexemes_append_of_fits hrest.1.2 hstop, String.ofList_toList, if_pos hrest.1.1,
        ih hrest.2 hapart.tail]

end Lexer

end FieldMask.Selector
