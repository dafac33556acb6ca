import FieldMask.Proofs.Selector.Feeding

/-!
# Blanks mean nothing

What comes of a selector depends on the kinds and the texts of its significant tokens only.  Blanks may be put
in, changed and taken out as long as these stay: then the selector gives the same fields, or the parser stops
at the same one of the significant tokens, which may stand elsewhere in the text
(`FieldSet.parse_same_of_lexemes_eq`).
-/

namespace FieldMask

namespace Selector

def Token.isSignificant (token : Token) : Bool :=
  token.lexeme.isSignificant

namespace Lexer

/-- The remaining tokens that are no blanks, and the end token. -/
def significant (lexer : Lexer) : List Token :=
  lexer.tokens.filter Token.isSignificant ++ [lexer.endToken]

theorem map_lexeme_significant
    (lexer : Lexer) :
    lexer.significant.map Token.lexeme = lexer.lexemes ++ [(.endOfInput, "")] := by
  rw [significant, List.map_append, lexemes, List.filter_map]
  rfl

end Lexer

namespace Parser

/-- Blanks are passed over. -/
theorem readTokens_filter_isSignificant
    (parser : Parser) (tokens : List Token) :
    parser.readTokens (tokens.filter Token.isSignificant) = parser.readTokens tokens := by
  induction tokens generalizing parser with
  | nil => rfl
  | cons token tokens ih =>
      by_cases h : token.isSignificant = true
      · rw [List.filter_cons_of_pos h, readTokens, readTokens]
        cases parser.step token with
        | more next completed => simp only [ih]
        | finished completed => rfl
        | unexpected => rfl
      · have hblank : token.kind = .whitespace := by
          simpa [Token.isSignificant, Lexeme.isSignificant, Token.lexeme] using h
        rw [List.filter_cons_of_neg h, ih, readTokens_cons_of_step (parser.step_whitespace hblank)]
        cases parser.readTokens tokens <;> rfl

theorem readTokens_significant
    (parser : Parser) (lexer : Lexer) :
    parser.readTokens lexer.significant = parser.readTokens (lexer.tokens ++ [lexer.endToken]) := by
  have hend : lexer.endToken.isSignificant = true := rfl
  have hfilter : lexer.significant =
      (lexer.tokens ++ [lexer.endToken]).filter Token.isSignificant := by
    rw [Lexer.significant, List.filter_append, List.filter_cons_of_pos hend, List.filter_nil]
  rw [hfilter, readTokens_filter_isSignificant]

/-- Tokens with the same lexemes give the same fields, or the same one of them is not accepted. -/
theorem readTokens_cases_of_lexemes_eq
    {tokens others : List Token} (h : tokens.map Token.lexeme = others.map Token.lexeme)
    (parser : Parser) :
    (∃ fields, parser.readTokens tokens = .ok fields ∧ parser.readTokens others = .ok fields) ∨
      ∃ (index : Nat) (token other : Token), tokens[index]? = some token ∧ others[index]? = some other ∧
        parser.readTokens tokens = .error ⟨token⟩ ∧ parser.readTokens others = .error ⟨other⟩ := by
  induction tokens generalizing others parser with
  | nil =>
      obtain rfl : others = [] := by simpa [eq_comm] using h
      exact Or.inl ⟨[], rfl, rfl⟩
  | cons token tokens ih =>
      cases others with
      | nil => simp at h
      | cons other others =>
          rw [List.map_cons, List.map_cons, List.cons.injEq] at h
          have hsame : parser.step other = parser.step token := by
            rw [← step_token_lexeme, ← h.1, step_token_lexeme]
          cases hstep : parser.step token with
          | more next completed =>
              rw [readTokens_cons_of_step hstep, readTokens_cons_of_step (hsame.trans hstep)]
              rcases ih h.2 next with ⟨fields, hread, hother⟩ | ⟨index, first, second, hrest⟩
              · exact Or.inl ⟨completed.toList ++ fields, by rw [hread]; rfl, by rw [hother]; rfl⟩
              · obtain ⟨hfirst, hsecond, hread, hother⟩ := hrest
                exact Or.inr ⟨index + 1, first, second, hfirst, hsecond, by rw [hread]; rfl,
                  by rw [hother]; rfl⟩
          | finished completed =>
              exact Or.inl ⟨completed.toList, by rw [readTokens, hstep],
                by rw [readTokens, hsame, hstep]⟩
          | unexpected =>
              exact Or.inr ⟨0, token, other, rfl, rfl, by rw [readTokens, hstep],
                by rw [readTokens, hsame, hstep]⟩

end Parser

end Selector

namespace FieldSet

open Selector

theorem parse_eq_readTokens_significant
    (source : String) :
    parse source =
      (Parser.initial.readTokens (Lexer.ofString source).significant).map FieldSet.mk := by
  rw [Parser.readTokens_significant, ← Parser.result_run]
  rfl

/-- Selectors with the same lexemes give the same set, or both fail, at the same one of their significant
tokens; that token may stand elsewhere, but its kind and its text are the same. -/
theorem parse_same_of_lexemes_eq
    {source other : String}
    (h : (Lexer.ofString source).lexemes = (Lexer.ofString other).lexemes) :
    (∃ set, parse source = .ok set ∧ parse other = .ok set) ∨
      ∃ (index : Nat) (token otherToken : Token),
        parse source = .error ⟨token⟩ ∧ parse other = .error ⟨otherToken⟩ ∧
        (Lexer.ofString source).significant[index]? = some token ∧
        (Lexer.ofString other).significant[index]? = some otherToken ∧
        token.kind = otherToken.kind ∧ token.text = otherToken.text := by
  have hmap : (Lexer.ofString source).significant.map Token.lexeme =
      (Lexer.ofString other).significant.map Token.lexeme := by
    rw [Lexer.map_lexeme_significant, Lexer.map_lexeme_significant, h]
  rw [parse_eq_readTokens_significant source, parse_eq_readTokens_significant other]
  rcases Parser.readTokens_cases_of_lexemes_eq hmap Parser.initial with
    ⟨fields, hread, hother⟩ | ⟨index, token, otherToken, htoken, hotherToken, hread, hother⟩
  · left
    exact ⟨⟨fields⟩, by rw [hread]; rfl, by rw [hother]; rfl⟩
  · right
    have hlexeme : token.lexeme = otherToken.lexeme := by
      have hindex := congrArg (·[index]?) hmap
      simpa [htoken, hotherToken] using hindex
    rw [Token.lexeme, Token.lexeme, Prod.mk.injEq] at hlexeme
    exact ⟨index, token, otherToken, by rw [hread]; rfl, by rw [hother]; rfl, htoken, hotherToken,
      hlexeme.1, hlexeme.2⟩

theorem parse_same_of_lexemes_eq_spread :
    (Lexer.ofString "a(b)c").lexemes = (Lexer.ofString " a ( b )\tc ").lexemes ∧
      parse "a(b)c" = .error ⟨⟨"c", .identifier, 4⟩⟩ ∧
      ∃ token, parse " a ( b )\tc " = .error ⟨token⟩ ∧ token.kind = .identifier ∧ token.text = "c" := by
  have h : (Lexer.ofString "a(b)c").lexemes = (Lexer.ofString " a ( b )\tc ").lexemes := by
    decide +kernel
  have herror : parse "a(b)c" = .error ⟨⟨"c", .identifier, 4⟩⟩ := by decide +kernel
  refine ⟨h, herror, ?_⟩
  rcases parse_same_of_lexemes_eq h with ⟨set, hset, -⟩ | ⟨_, token, other, hread, hother, -, -, hsame⟩
  · rw [herror] at hset
    cases hset
  · rw [herror] at hread
    cases hread
    exact ⟨other, hother, hsame.1.symm, hsame.2.symm⟩

end FieldSet

end FieldMask
