import FieldMask.Proofs.Selector.Blanks
import FieldMask.Proofs.Selector.Correctness

/-!
# Selectors one after the other

A comma outside all groups ends a selector and begins the next.  In the text it keeps the tokens on both sides
apart, so those behind it are the tokens of the second selector, moved by the characters in front
(`Lexer.tokens_ofString_comma`).  In the parser it leaves no path and no group open, whether a name or a
closing parenthesis stands in front of it (`Parser.Traces.dropPath_eq_fresh`).  A fresh parser differs from one
at the very start in a single point: the selector may not end there.

So what comes of both selectors with a comma between them is what comes of the second, behind the fields of
the first (`FieldSet.parse_comma`).
-/

namespace FieldMask

namespace Selector

/-! ## Tokens on both sides of a comma -/

namespace Lexer

/-- The tokens of two texts with a comma between them. -/
theorem tokens_ofString_comma
    (source more : String) :
    (Lexer.ofString (source ++ "," ++ more)).tokens =
      (Lexer.ofString source).tokens ++ ⟨",", .comma, source.length⟩ ::
        (Lexer.ofString more).tokens.map (Token.moved (source.length + 1)) := by
  have htext : (source ++ "," ++ more).toList = source.toList ++ ',' :: more.toList := by simp
  have hcomma : ∀ c ∈ (',' :: more.toList).head?, ∀ kind : Kind, kind.continuedBy c = false := by
    intro c hc kind
    obtain rfl : ',' = c := by simpa using hc
    cases kind <;> rfl
  have hmoved : Lexer.tokens ⟨more.toList, source.length + 1⟩ =
      (Lexer.ofString more).tokens.map (Token.moved (source.length + 1)) := by
    rw [← tokens_moved]
    simp only [Lexer.ofString, Nat.zero_add]
  have hbehind : Lexer.tokens ⟨',' :: more.toList, source.length⟩ =
      ⟨",", .comma, source.length⟩ :: Lexer.tokens ⟨more.toList, source.length + 1⟩ :=
    tokens_of_rest_ne_nil (List.cons_ne_nil _ _)
  have happend := tokens_append_of_not_continuedBy hcomma (Lexer.ofString source)
  rw [Lexer.ofString, htext, ← hmoved, ← hbehind]
  simpa [Lexer.ofString, String.length_toList] using happend

end Lexer

/-! ## The parser behind a comma -/

namespace Parser

/-- The parser behind a comma outside all groups. -/
def fresh : Parser :=
  ⟨.opening, [], 0⟩

/-- Where a selector with fields may end, a comma leaves nothing of it in the parser. -/
theorem Traces.dropPath_eq_fresh
    {parser : Parser} {lexemes : List Lexeme} {fields : List Field}
    (h : parser.Traces lexemes fields) (hends : parser.Ends) (houtside : parser.depth = 0) :
    parser.dropPath .opening = fresh := by
  obtain ⟨ends, hderives, -⟩ := h
  obtain ⟨group, frames, done, first, more, hopen, hdepth, -⟩ := hderives.behind hends
  have hnone : frames = [] := by simpa [houtside, eq_comm] using hdepth
  subst hnone
  rw [dropPath, hopen, houtside]
  rfl

theorem Traces.ends_of_complete
    {parser : Parser} {lexemes : List Lexeme} {fields : List Field}
    (h : parser.Traces lexemes fields) (hcomplete : parser.Complete)
    (hfields : fields ++ parser.pending.toList ≠ []) :
    parser.Ends ∧ parser.depth = 0 := by
  rcases hcomplete with hstage | hends
  · obtain ⟨ends, hderives, hall⟩ := h
    simp only [Derives, hstage] at hderives
    obtain ⟨-, -, rfl⟩ := hderives
    exact absurd hall hfields
  · exact hends

/-- A fresh parser begins like one at the very start. -/
theorem readTokens_fresh_cons
    {token : Token} (hblank : token.kind ≠ .whitespace) (hend : token.kind ≠ .endOfInput)
    (tokens : List Token) :
    fresh.readTokens (token :: tokens) = initial.readTokens (token :: tokens) := by
  have hstep : fresh.step token = initial.step token := by
    obtain ⟨text, kind, position⟩ := token
    cases kind <;> first | rfl | contradiction
  rw [readTokens, readTokens, hstep]

/-- Where the text stands does not matter, but the error does stand somewhere. -/
theorem readTokens_map_moved
    (parser : Parser) (count : Nat) (tokens : List Token) :
    parser.readTokens (tokens.map (Token.moved count)) =
      (parser.readTokens tokens).mapError fun error => ⟨error.token.moved count⟩ := by
  have hsame : tokens.map Token.lexeme = (tokens.map (Token.moved count)).map Token.lexeme := by
    rw [List.map_map]
    rfl
  rcases readTokens_cases_of_lexemes_eq hsame parser with
    ⟨fields, hread, hmoved⟩ | ⟨index, token, other, htoken, hother, hread, hmoved⟩
  · rw [hread, hmoved]
    rfl
  · obtain rfl : token.moved count = other := by simpa [htoken] using hother
    rw [hread, hmoved]
    rfl

/-- A selector may not end behind a comma, but at the very start. -/
theorem readTokens_significant_of_lexemes_eq_nil
    {lexer : Lexer} (h : lexer.lexemes = []) :
    fresh.readTokens lexer.significant = .error ⟨lexer.endToken⟩ ∧
      initial.readTokens lexer.significant = .ok [] := by
  have hnone : lexer.tokens.filter Token.isSignificant = [] := by
    rwa [Lexer.lexemes, List.filter_map, List.map_eq_nil_iff] at h
  rw [Lexer.significant, hnone]
  exact ⟨rfl, rfl⟩

/-- Of anything but blanks a fresh parser makes what one at the very start makes of it. -/
theorem readTokens_fresh_significant
    {lexer : Lexer} (h : lexer.lexemes ≠ []) :
    fresh.readTokens lexer.significant = initial.readTokens lexer.significant := by
  have hsome : lexer.tokens.filter Token.isSignificant ≠ [] := by
    rwa [Lexer.lexemes, List.filter_map, ne_eq, List.map_eq_nil_iff] at h
  obtain ⟨token, others, hcons⟩ := List.exists_cons_of_ne_nil hsome
  have hmem : token ∈ lexer.tokens.filter Token.isSignificant := by simp [hcons]
  obtain ⟨htoken, hsignificant⟩ := List.mem_filter.mp hmem
  have hblank : token.kind ≠ .whitespace := by
    simpa [Token.isSignificant, Lexeme.isSignificant, Token.lexeme] using hsignificant
  rw [Lexer.significant, hcons, List.cons_append]
  exact readTokens_fresh_cons hblank (Lexer.kind_ne_endOfInput_of_mem_tokens htoken) _

end Parser

end Selector

namespace FieldSet

open Selector

/-- Behind a selector with fields and a comma, the rest of the text is read by a fresh parser. -/
theorem parse_comma_eq
    {source : String} {set : FieldSet} (hparse : parse source = .ok set) (hfields : set.fields ≠ [])
    (more : String) :
    parse (source ++ "," ++ more) =
      ((Parser.fresh.readTokens (Lexer.ofString more).significant).mapError fun error =>
        ⟨error.token.moved (source.length + 1)⟩).map fun fields => ⟨set.fields ++ fields⟩ := by
  obtain ⟨last, completed, hfeed, hcomplete, hall⟩ := (parse_eq_ok_iff source set).mp hparse
  have htraces := Parser.traces_feed Parser.traces_initial
    (fun _ => Lexer.wellFormed_of_mem_lexemes) hfeed
  rw [Lexer.lexemes, Parser.feed_filter_isSignificant] at hfeed
  rw [hall] at hfields
  obtain ⟨hends, houtside⟩ := htraces.ends_of_complete hcomplete hfields
  let comma : Token := ⟨",", .comma, source.length⟩
  have hcomma : last.step comma = .more Parser.fresh last.pending := by
    rw [← htraces.dropPath_eq_fresh hends houtside]
    exact Parser.step_of_moves (.comma "," hends)
  have hend : (Lexer.ofString (source ++ "," ++ more)).endToken =
      (Lexer.ofString more).endToken.moved (source.length + 1) := by
    simp [Lexer.endToken, Lexer.ofString, Token.moved, Token.endOfInput, String.length_toList]
    omega
  have htokens : (Lexer.ofString (source ++ "," ++ more)).tokens ++
        [(Lexer.ofString (source ++ "," ++ more)).endToken] =
      (Lexer.ofString source).tokens ++ comma ::
        ((Lexer.ofString more).tokens ++ [(Lexer.ofString more).endToken]).map
          (Token.moved (source.length + 1)) := by
    rw [hend, Lexer.tokens_ofString_comma]
    simp [comma]
  rw [parse_eq_readTokens_significant, Parser.readTokens_significant, htokens,
    Parser.readTokens_append_of_feed hfeed, Parser.readTokens_cons_of_step hcomma,
    Parser.readTokens_map_moved, Parser.readTokens_significant]
  cases Parser.fresh.readTokens
      ((Lexer.ofString more).tokens ++ [(Lexer.ofString more).endToken]) with
  | ok fields => simp [Except.map, Except.mapError, hall]
  | error error => rfl

/-- If there is more than blanks behind the comma, it comes out as it does on its own. -/
theorem parse_comma_of_lexemes_ne_nil
    {source : String} {set : FieldSet} (hparse : parse source = .ok set) (hfields : set.fields ≠ [])
    {more : String} (hmore : (Lexer.ofString more).lexemes ≠ []) :
    parse (source ++ "," ++ more) =
      ((parse more).mapError fun error => ⟨error.token.moved (source.length + 1)⟩).map
        fun others => ⟨set.fields ++ others.fields⟩ := by
  rw [parse_comma_eq hparse hfields, Parser.readTokens_fresh_significant hmore,
    parse_eq_readTokens_significant more]
  cases Parser.initial.readTokens (Lexer.ofString more).significant <;> rfl

/-- A selector without lexemes asks for nothing. -/
theorem parse_of_lexemes_eq_nil
    {source : String} (h : (Lexer.ofString source).lexemes = []) :
    parse source = .ok empty := by
  rw [parse_eq_readTokens_significant, (Parser.readTokens_significant_of_lexemes_eq_nil h).2]
  rfl

/-- Behind a selector with fields, a comma begins a new selector: its fields come behind those in front, its
errors are found where they are in the whole text, and it may not be blank. -/
theorem parse_comma
    {source : String} {set : FieldSet} (hparse : parse source = .ok set) (hfields : set.fields ≠ [])
    (more : String) :
    (∀ others, parse more = .ok others → others.fields ≠ [] →
      parse (source ++ "," ++ more) = .ok ⟨set.fields ++ others.fields⟩) ∧
    ((∀ c ∈ more.toList, isBlank c = true) →
      parse (source ++ "," ++ more) = .error ⟨.endOfInput (source.length + 1 + more.length)⟩) ∧
    ∀ error, parse more = .error error →
      parse (source ++ "," ++ more) =
        .error ⟨{ error.token with position := error.token.position + (source.length + 1) }⟩ := by
  refine ⟨?_, ?_, ?_⟩
  · intro others hothers hne
    have hmore : (Lexer.ofString more).lexemes ≠ [] := by
      intro hnil
      rw [parse_of_lexemes_eq_nil hnil] at hothers
      cases hothers
      exact hne rfl
    rw [parse_comma_of_lexemes_ne_nil hparse hfields hmore, hothers]
    rfl
  · intro hblank
    have hnil := lexemes_ofString_of_blank hblank
    have hposition : (Lexer.ofString more).endToken.moved (source.length + 1) =
        .endOfInput (source.length + 1 + more.length) := by
      simp [Lexer.endToken, Lexer.ofString, Token.moved, Token.endOfInput, String.length_toList,
        Nat.add_comm]
    rw [parse_comma_eq hparse hfields, (Parser.readTokens_significant_of_lexemes_eq_nil hnil).1,
      ← hposition]
    rfl
  · intro error herror
    have hmore : (Lexer.ofString more).lexemes ≠ [] := by
      intro hnil
      rw [parse_of_lexemes_eq_nil hnil] at herror
      cases herror
    rw [parse_comma_of_lexemes_ne_nil hparse hfields hmore, herror]
    rfl

theorem parse_comma_groups :
    parse "a(b(c))" = .ok (ofPaths ["a/b/c"]) ∧ (ofPaths ["a/b/c"]).fields ≠ [] ∧
      parse "a(b(c)),d,e/f" = .ok (ofPaths ["a/b/c", "d", "e/f"]) ∧
      parse "a(b(c)), " = .error ⟨.endOfInput 9⟩ ∧
      parse "a(b(c)),d)" = .error ⟨⟨")", .rightParen, 9⟩⟩ := by
  have hparse : parse "a(b(c))" = .ok (ofPaths ["a/b/c"]) := by decide +kernel
  have hfields : (ofPaths ["a/b/c"]).fields ≠ [] := by simp [ofPaths]
  have hmore : parse "d,e/f" = .ok (ofPaths ["d", "e/f"]) := by decide +kernel
  have hblank : ∀ c ∈ " ".toList, isBlank c = true := by
    intro c hc
    obtain rfl : c = ' ' := by simpa using hc
    rfl
  have herror : parse "d)" = .error ⟨⟨")", .rightParen, 1⟩⟩ := by decide +kernel
  refine ⟨hparse, hfields, ?_, ?_, ?_⟩
  · exact (parse_comma hparse hfields "d,e/f").1 _ hmore (by simp)
  · exact (parse_comma hparse hfields " ").2.1 hblank
  · exact (parse_comma hparse hfields "d)").2.2 _ herror

end FieldSet

end FieldMask
