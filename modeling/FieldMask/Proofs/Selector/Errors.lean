import FieldMask.Proofs.Selector.Feeding

/-!
# Where malformed selectors fail

A parser that has accepted some text is never at a dead end: a name, if it waits for one, and then a
closing parenthesis for every open group complete the selector.  So an error at the end of the text says
that the text is too short, and nothing else.

An error at any other token is final.  The tokens in front of it do not change when text is added or cut
off behind them, and only the kind of a token decides whether the parser accepts it; so every longer text
fails at the same place, while the text in front of it can still be completed.
-/

namespace FieldMask

namespace Selector

namespace Parser

/-! ## Completing a selector -/

/-- As many closing parentheses as there are open groups complete a selector behind a path. -/
theorem Ends.feed_closing
    {parser : Parser} (h : parser.Ends) :
    ∃ last fields,
      parser.feed (List.replicate parser.depth (.rightParen, Kind.rightParen.symbol)) =
          some (last, fields) ∧
        last.Complete := by
  induction hdepth : parser.depth generalizing parser with
  | zero => exact ⟨parser, [], rfl, Or.inr ⟨h, hdepth⟩⟩
  | succ depth ih =>
      have hmoves := Moves.close Kind.rightParen.symbol depth h hdepth
      have hends : Ends { parser.dropPath .closing with depth } := Or.inr rfl
      obtain ⟨last, fields, hfeed, hcomplete⟩ := ih hends rfl
      refine ⟨last, parser.pending.toList ++ fields, ?_, hcomplete⟩
      rw [List.replicate_succ, feed_cons_of_step (step_of_moves hmoves), hfeed]
      rfl

/-- The name that completions use. -/
def anyName : Lexeme :=
  (.identifier, "a")

theorem wellFormed_anyName :
    anyName.WellFormed := by
  refine (wellFormed_identifier_iff "a").mpr ⟨by simp, ?_⟩
  intro c hc
  obtain rfl : c = 'a' := by simpa using hc
  rfl

/-- A parser that waits for a name is content with any one. -/
theorem step_anyName
    {parser : Parser} (h : ¬parser.Complete) (hends : ¬parser.Ends) :
    ∃ next, parser.step anyName.token = .more next none ∧ next.Ends := by
  cases hstage : parser.stage with
  | start => exact absurd (Or.inl hstage) h
  | slash => exact ⟨_, step_of_moves (.extend "a" hstage), Or.inl rfl⟩
  | opening => exact ⟨_, step_of_moves (.begin "a" (Or.inr hstage)), Or.inl rfl⟩
  | name => exact absurd (Or.inl hstage) hends
  | closing => exact absurd (Or.inr hstage) hends

/-- No parser is at a dead end. -/
theorem exists_completion
    (parser : Parser) :
    ∃ lexemes : List Lexeme, (∀ lexeme ∈ lexemes, lexeme.WellFormed) ∧
      ∃ last fields, parser.feed lexemes = some (last, fields) ∧ last.Complete := by
  have hclosing (depth : Nat) (lexeme : Lexeme)
      (hmem : lexeme ∈ List.replicate depth (.rightParen, Kind.rightParen.symbol)) :
      lexeme.WellFormed := by
    rw [List.eq_of_mem_replicate hmem]
    exact wellFormed_symbol rfl (by decide)
  by_cases hends : parser.Ends
  · exact ⟨_, hclosing parser.depth, hends.feed_closing⟩
  by_cases hcomplete : parser.Complete
  · exact ⟨[], by simp, parser, [], rfl, hcomplete⟩
  · obtain ⟨next, hstep, hnext⟩ := step_anyName hcomplete hends
    obtain ⟨last, fields, hfeed, hlast⟩ := hnext.feed_closing
    refine ⟨_, List.forall_mem_cons.mpr ⟨wellFormed_anyName, hclosing next.depth⟩, last, fields, ?_,
      hlast⟩
    rw [feed_cons_of_step hstep, hfeed]
    rfl

end Parser

/-- Lexemes are spelled by their texts in a row. -/
theorem spells_flatMap
    (lexemes : List Lexeme) :
    Spells lexemes (lexemes.flatMap (·.2.toList)) := by
  induction lexemes with
  | nil => exact .nil (by simp)
  | cons lexeme lexemes ih => exact (spells_lexeme lexeme).append ih

end Selector

open Selector

namespace FieldSet

/-- A text whose lexemes are all accepted can be completed. -/
theorem exists_parse_append_eq_ok
    {source : String} {parser : Parser} {fields : List Field}
    (h : Parser.initial.feed (Lexer.ofString source).lexemes = some (parser, fields)) :
    ∃ more set, parse (source ++ more) = .ok set := by
  obtain ⟨lexemes, hwf, last, later, hfeed, hcomplete⟩ := parser.exists_completion
  have hall : Parser.initial.feed ((Lexer.ofString source).lexemes ++ lexemes) =
      some (last, fields ++ later) := by
    rw [Parser.feed_append_of_eq_some h, hfeed]
    rfl
  let more := String.ofList (lexemes.flatMap (·.2.toList))
  have htext : (source ++ more).toList = source.toList ++ lexemes.flatMap (·.2.toList) := by
    simp [more]
  have hlexemes : (Lexer.ofString (source ++ more)).lexemes =
      (Lexer.ofString source).lexemes ++ lexemes := by
    rw [Lexer.ofString, htext]
    apply Lexer.lexemes_eq_of_spells
    · exact (Lexer.ofString source).spells_lexemes.append (spells_flatMap lexemes)
    · intro lexeme hmem
      exact (List.mem_append.mp hmem).elim Lexer.wellFormed_of_mem_lexemes (hwf lexeme)
    · exact Parser.isChain_keptApart_of_feed hall
  refine ⟨more, ⟨fields ++ later ++ last.pending.toList⟩, ?_⟩
  rw [parse_eq_ok_iff, hlexemes]
  exact ⟨last, fields ++ later, hall, hcomplete, rfl⟩

/-! ## The first token that is not accepted -/

/-- A selector whose tokens are accepted up to one is in error there. -/
theorem parse_eq_error_of_tokens
    {source : String} {front back : List Token} {token : Token} {last : Parser} {fields : List Field}
    (htokens : (Lexer.ofString source).tokens = front ++ token :: back)
    (hfeed : Parser.initial.feed (front.map Token.lexeme) = some (last, fields))
    (hstep : last.step token = .unexpected) :
    parse source = .error ⟨token⟩ := by
  rw [parse_eq_readTokens, htokens, List.append_assoc, List.cons_append,
    Parser.readTokens_eq_error hfeed hstep]
  rfl

/-- A selector whose tokens are all accepted is in error at its end, if at all. -/
theorem parse_cases_of_feed_tokens
    {source : String} {last : Parser} {fields : List Field}
    (hfeed : Parser.initial.feed ((Lexer.ofString source).tokens.map Token.lexeme) =
      some (last, fields)) :
    (∃ set, parse source = .ok set) ∨ parse source = .error ⟨.endOfInput source.length⟩ := by
  have hkind : (Token.endOfInput source.length).kind = .endOfInput := rfl
  have hend := last.step_endOfInput hkind
  rw [parse_eq_readTokens]
  by_cases hcomplete : last.Complete
  · left
    rw [Parser.readTokens_append_of_feed hfeed, Parser.readTokens, hend.1 hcomplete]
    exact ⟨_, rfl⟩
  · right
    rw [Parser.readTokens_eq_error hfeed (hend.2 hcomplete)]
    rfl

/-- In front of an error all tokens are accepted, and the error is the end or the next token. -/
theorem exists_front_of_parse_eq_error
    {source : String} {error : SyntaxError} (h : parse source = .error error) :
    ∃ front last fields,
      Parser.initial.feed (front.map Token.lexeme) = some (last, fields) ∧
        last.step error.token = .unexpected ∧
        ((error.token = .endOfInput source.length ∧ (Lexer.ofString source).tokens = front) ∨
          ∃ back, (Lexer.ofString source).tokens = front ++ error.token :: back) := by
  rw [parse_eq_readTokens] at h
  have hread : Parser.initial.readTokens
      ((Lexer.ofString source).tokens ++ [.endOfInput source.length]) = .error error := by
    cases hread : Parser.initial.readTokens
        ((Lexer.ofString source).tokens ++ [.endOfInput source.length]) with
    | ok fields => rw [hread] at h; cases h
    | error inner =>
        rw [hread] at h
        cases h
        rfl
  obtain ⟨front, back, last, fields, htokens, hfeed, hstep⟩ :=
    Parser.exists_front_of_readTokens_eq_error hread
  refine ⟨front, last, fields, hfeed, hstep, ?_⟩
  rcases List.eq_nil_or_concat back with rfl | ⟨back, final, rfl⟩
  · left
    obtain ⟨hfront, hlast⟩ := List.append_inj' htokens rfl
    rw [List.cons.injEq] at hlast
    exact ⟨hlast.1.symm, hfront⟩
  · right
    rw [List.concat_eq_append, ← List.cons_append, ← List.append_assoc] at htokens
    exact ⟨back, (List.append_inj' htokens rfl).1⟩

/-- A token that is not accepted stays one when more text follows. -/
theorem parse_append_eq_error
    {source : String} {front back : List Token} {token : Token} {last : Parser} {fields : List Field}
    (htokens : (Lexer.ofString source).tokens = front ++ token :: back)
    (hfeed : Parser.initial.feed (front.map Token.lexeme) = some (last, fields))
    (hstep : last.step token = .unexpected) (more : String) :
    ∃ error, parse (source ++ more) = .error error ∧
      error.token.kind = token.kind ∧ error.token.position = token.position := by
  obtain ⟨longer, later, hlonger, hkind, hposition⟩ := Lexer.tokens_append htokens more.toList
  have htext : (Lexer.ofString (source ++ more)).tokens = front ++ longer :: later := by
    rw [Lexer.ofString, String.toList_append]
    exact hlonger
  have hunexpected := Parser.step_eq_unexpected_of_kind_eq hkind.symm hstep
  exact ⟨⟨longer⟩, parse_eq_error_of_tokens htext hfeed hunexpected, hkind, hposition⟩

/-- The text in front of a token is in error at its end, if at all, when its tokens are accepted. -/
theorem parse_take_cases
    {source : String} {front back : List Token} {token : Token} {last : Parser} {fields : List Field}
    (htokens : (Lexer.ofString source).tokens = front ++ token :: back)
    (hfeed : Parser.initial.feed (front.map Token.lexeme) = some (last, fields)) :
    (∃ set, parse (String.ofList (source.toList.take token.position)) = .ok set) ∨
      ∃ error, parse (String.ofList (source.toList.take token.position)) = .error error ∧
        error.token.kind = .endOfInput := by
  have hfront :
      (Lexer.ofString (String.ofList (source.toList.take token.position))).tokens = front := by
    rw [Lexer.ofString, String.toList_ofList]
    exact (Lexer.tokens_take htokens).2
  rw [← hfront] at hfeed
  rcases parse_cases_of_feed_tokens hfeed with hok | herror
  · exact Or.inl hok
  · exact Or.inr ⟨_, herror, rfl⟩

/-- An error is at the earliest token that no continuation can repair.  It is at the end only when the
text can be completed; elsewhere every continuation fails in the same way, while the text in front of the
error is a selector or fails at its end. -/
theorem error_at_earliest_token
    {source : String} {error : SyntaxError} (h : parse source = .error error) :
    ((error.token ∈ (Lexer.ofString source).tokens ∨ error.token = .endOfInput source.length) ∧
      error.token.kind ≠ .whitespace) ∧
    (error.token.kind = .endOfInput → ∃ more set, parse (source ++ more) = .ok set) ∧
    (error.token.kind ≠ .endOfInput →
      (∀ more, ∃ other, parse (source ++ more) = .error other ∧
        other.token.kind = error.token.kind ∧ other.token.position = error.token.position) ∧
      ((∃ set, parse (String.ofList (source.toList.take error.token.position)) = .ok set) ∨
        ∃ other, parse (String.ofList (source.toList.take error.token.position)) = .error other ∧
          other.token.kind = .endOfInput)) := by
  obtain ⟨front, last, fields, hfeed, hstep, hplace⟩ := exists_front_of_parse_eq_error h
  have hblank : error.token.kind ≠ .whitespace := by
    intro hblank
    rw [last.step_whitespace hblank] at hstep
    cases hstep
  rcases hplace with ⟨hend, htokens⟩ | ⟨back, htokens⟩
  · have hkind : error.token.kind = .endOfInput := by rw [hend]; rfl
    have hlexemes : Parser.initial.feed (Lexer.ofString source).lexemes = some (last, fields) := by
      rw [Lexer.lexemes, Parser.feed_filter_isSignificant, htokens, hfeed]
    refine ⟨⟨Or.inr hend, hblank⟩, ?_, ?_⟩
    · intro _
      exact exists_parse_append_eq_ok hlexemes
    · intro hne
      exact absurd hkind hne
  · have hmem : error.token ∈ (Lexer.ofString source).tokens := by simp [htokens]
    have hkind := Lexer.kind_ne_endOfInput_of_mem_tokens hmem
    refine ⟨⟨Or.inl hmem, hblank⟩, ?_, ?_⟩
    · intro hend
      exact absurd hend hkind
    · intro _
      exact ⟨parse_append_eq_error htokens hfeed hstep, parse_take_cases htokens hfeed⟩

theorem error_at_earliest_token_closing :
    parse "a(b))c" = .error ⟨⟨")", .rightParen, 4⟩⟩ ∧
      ∀ more, ∃ other, parse ("a(b))c" ++ more) = .error other ∧
        other.token.kind = .rightParen ∧ other.token.position = 4 := by
  have h : parse "a(b))c" = .error ⟨⟨")", .rightParen, 4⟩⟩ := by decide +kernel
  exact ⟨h, ((error_at_earliest_token h).2.2 (by decide)).1⟩

end FieldSet

end FieldMask
