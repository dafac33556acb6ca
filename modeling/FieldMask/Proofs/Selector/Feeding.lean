import FieldMask.FieldSet
import FieldMask.Proofs.Selector.Lexemes

/-!
# Feeding lexemes to the parser

What the parser makes of a token depends on its lexeme only, and blanks change nothing.  So a reading is
determined by the lexemes of the selector: `Parser.feed` follows the parser through lexemes that it
accepts, and `Parser.readTokens` gives what comes of a list of tokens, errors included.  A selector is
accepted exactly when the parser can be fed all its lexemes and may stop behind them
(`FieldSet.parse_eq_ok_iff`); otherwise the error is the first token that cannot be fed
(`Parser.exists_front_of_readTokens_eq_error`).

The moves of the parser are listed once, in `Parser.Moves`.  All invariants are shown on them.
-/

namespace FieldMask

namespace Selector

def Lexeme.token (lexeme : Lexeme) : Token :=
  ⟨lexeme.2, lexeme.1, 0⟩

namespace Parser

theorem step_token_lexeme
    (parser : Parser) (token : Token) :
    parser.step token.lexeme.token = parser.step token :=
  rfl

/-! ## What the parser may do -/

/-- A path must begin here, or may. -/
def Begins (parser : Parser) : Prop :=
  parser.stage = .start ∨ parser.stage = .opening

def Ends (parser : Parser) : Prop :=
  parser.stage = .name ∨ parser.stage = .closing

/-- The field that is completed if the innermost path ends here. -/
def pending (parser : Parser) : Option Field :=
  if parser.stage = .name then parser.innermost? else none

/-- The selector may end here. -/
def Complete (parser : Parser) : Prop :=
  parser.stage = .start ∨ parser.Ends ∧ parser.depth = 0

/-- The significant lexemes that a parser accepts, the parser behind them and the field completed. -/
inductive Moves (parser : Parser) : Lexeme → Parser → Option Field → Prop
  | begin (name : String) (h : parser.Begins) :
      Moves parser (.identifier, name) (parser.begin name) none
  | extend (name : String) (h : parser.stage = .slash) :
      Moves parser (.identifier, name) (parser.extend name) none
  | slash (text : String) (h : parser.stage = .name) :
      Moves parser (.forwardSlash, text) { parser with stage := .slash } none
  | group (text : String) (h : parser.stage = .name) :
      Moves parser (.leftParen, text)
        { parser with stage := .opening, depth := parser.depth + 1 } none
  | comma (text : String) (h : parser.Ends) :
      Moves parser (.comma, text) (parser.dropPath .opening) parser.pending
  | close (text : String) (depth : Nat) (h : parser.Ends) (hdepth : parser.depth = depth + 1) :
      Moves parser (.rightParen, text) { parser.dropPath .closing with depth } parser.pending

theorem step_whitespace
    (parser : Parser) {token : Token} (h : token.kind = .whitespace) :
    parser.step token = .more parser none := by
  unfold step
  rw [h]

/-- The end of the text is accepted where the selector may end. -/
theorem step_endOfInput
    (parser : Parser) {token : Token} (h : token.kind = .endOfInput) :
    (parser.Complete → parser.step token = .finished parser.pending) ∧
      (¬parser.Complete → parser.step token = .unexpected) := by
  unfold step
  rw [h]
  cases hstage : parser.stage <;> simp [Complete, Ends, pending, hstage]

theorem close_eq_more_iff
    {parser next : Parser} {field completed : Option Field} :
    parser.close field = .more next completed ↔
      ∃ depth, parser.depth = depth + 1 ∧
        next = { parser.dropPath .closing with depth } ∧ completed = field := by
  unfold close
  split
  next hdepth => simp [hdepth]
  next depth hdepth =>
    rw [Step.more.injEq]
    constructor
    · rintro ⟨rfl, rfl⟩
      exact ⟨depth, hdepth, rfl, rfl⟩
    · rintro ⟨inner, hinner, rfl, rfl⟩
      obtain rfl : depth = inner := by omega
      exact ⟨rfl, rfl⟩

theorem close_ne_finished
    (parser : Parser) (field completed : Option Field) :
    parser.close field ≠ .finished completed := by
  unfold close
  split <;> simp

theorem kind_of_step_eq_finished
    {parser : Parser} {token : Token} {completed : Option Field}
    (h : parser.step token = .finished completed) :
    token.kind = .endOfInput := by
  obtain ⟨text, kind, position⟩ := token
  cases hstage : parser.stage <;> cases kind <;> simp_all [step, close_ne_finished]

theorem step_of_moves
    {parser next : Parser} {lexeme : Lexeme} {completed : Option Field}
    (h : parser.Moves lexeme next completed) :
    parser.step lexeme.token = .more next completed := by
  cases h with
  | begin name h => rcases h with h | h <;> simp [step, Lexeme.token, h]
  | extend name h => simp [step, Lexeme.token, h]
  | slash text h => simp [step, Lexeme.token, h]
  | group text h => simp [step, Lexeme.token, h]
  | comma text h => rcases h with h | h <;> simp [step, Lexeme.token, h, pending]
  | close text depth h hdepth =>
      have hclose : parser.close parser.pending =
          .more { parser.dropPath .closing with depth } parser.pending :=
        close_eq_more_iff.mpr ⟨depth, hdepth, rfl, rfl⟩
      rcases h with h | h <;> simpa [step, Lexeme.token, h, pending] using hclose

theorem moves_of_step
    {parser next : Parser} {lexeme : Lexeme} {completed : Option Field}
    (hsignificant : lexeme.isSignificant = true)
    (h : parser.step lexeme.token = .more next completed) :
    parser.Moves lexeme next completed := by
  obtain ⟨kind, text⟩ := lexeme
  cases kind with
  | whitespace => simp [Lexeme.isSignificant] at hsignificant
  | endOfInput => exact absurd h (parser.step_ne_more_of_end rfl next completed)
  | identifier =>
      cases hstage : parser.stage <;>
        simp only [step, Lexeme.token, hstage, Step.more.injEq, reduceCtorEq] at h
      case start =>
        obtain ⟨rfl, rfl⟩ := h
        exact .begin text (Or.inl hstage)
      case slash =>
        obtain ⟨rfl, rfl⟩ := h
        exact .extend text hstage
      case opening =>
        obtain ⟨rfl, rfl⟩ := h
        exact .begin text (Or.inr hstage)
  | forwardSlash =>
      cases hstage : parser.stage <;>
        simp only [step, Lexeme.token, hstage, Step.more.injEq, reduceCtorEq] at h
      obtain ⟨rfl, rfl⟩ := h
      exact .slash text hstage
  | leftParen =>
      cases hstage : parser.stage <;>
        simp only [step, Lexeme.token, hstage, Step.more.injEq, reduceCtorEq] at h
      obtain ⟨rfl, rfl⟩ := h
      exact .group text hstage
  | rightParen =>
      have hends : parser.Ends ∧ parser.close parser.pending = .more next completed := by
        cases hstage : parser.stage <;>
          simp only [step, Lexeme.token, hstage, reduceCtorEq] at h
        all_goals simpa [Ends, pending, hstage] using h
      obtain ⟨depth, hdepth, rfl, rfl⟩ := close_eq_more_iff.mp hends.2
      exact .close text depth hends.1 hdepth
  | comma =>
      have hends : parser.Ends ∧ parser.dropPath .opening = next ∧ parser.pending = completed := by
        cases hstage : parser.stage <;>
          simp only [step, Lexeme.token, hstage, Step.more.injEq, reduceCtorEq] at h
        all_goals simpa [Ends, pending, hstage] using h
      obtain ⟨hends, rfl, rfl⟩ := hends
      exact .comma text hends

/-- Only the kind of a token decides whether it is accepted. -/
theorem step_eq_unexpected_of_kind_eq
    {parser : Parser} {token other : Token} (hkind : token.kind = other.kind)
    (h : parser.step token = .unexpected) :
    parser.step other = .unexpected := by
  obtain ⟨text, kind, position⟩ := token
  obtain ⟨otherText, otherKind, otherPosition⟩ := other
  obtain rfl : kind = otherKind := hkind
  cases hstage : parser.stage <;> cases kind <;> simp_all [step]

/-! ## Feeding -/

/-- The parser behind lexemes that are all accepted, and the fields completed on the way. -/
def feed (parser : Parser) : List Lexeme → Option (Parser × List Field)
  | [] => some (parser, [])
  | lexeme :: lexemes =>
    match parser.step lexeme.token with
    | .more next completed =>
      (next.feed lexemes).map fun (last, fields) => (last, completed.toList ++ fields)
    | _ => none

@[simp]
theorem feed_nil
    (parser : Parser) :
    parser.feed [] = some (parser, []) :=
  rfl

theorem feed_cons_of_step
    {parser next : Parser} {lexeme : Lexeme} {completed : Option Field}
    (h : parser.step lexeme.token = .more next completed) (lexemes : List Lexeme) :
    parser.feed (lexeme :: lexemes) =
      (next.feed lexemes).map fun (last, fields) => (last, completed.toList ++ fields) := by
  rw [feed, h]

theorem feed_cons_eq_some_iff
    {parser last : Parser} {lexeme : Lexeme} {lexemes : List Lexeme} {fields : List Field} :
    parser.feed (lexeme :: lexemes) = some (last, fields) ↔
      ∃ next completed later, parser.step lexeme.token = .more next completed ∧
        next.feed lexemes = some (last, later) ∧ fields = completed.toList ++ later := by
  rw [feed]
  cases parser.step lexeme.token with
  | more next completed =>
      simp only [Option.map_eq_some_iff, Prod.exists, Prod.mk.injEq, Step.more.injEq]
      constructor
      · rintro ⟨last, later, hfeed, rfl, rfl⟩
        exact ⟨next, completed, later, ⟨rfl, rfl⟩, hfeed, rfl⟩
      · rintro ⟨next, completed, later, ⟨rfl, rfl⟩, hfeed, rfl⟩
        exact ⟨last, later, hfeed, rfl, rfl⟩
  | finished completed => simp
  | unexpected => simp

theorem feed_append
    (parser : Parser) (lexemes others : List Lexeme) :
    parser.feed (lexemes ++ others) =
      (parser.feed lexemes).bind fun (next, fields) =>
        (next.feed others).map fun (last, later) => (last, fields ++ later) := by
  induction lexemes generalizing parser with
  | nil => simp
  | cons lexeme lexemes ih =>
      rw [List.cons_append, feed, feed]
      cases parser.step lexeme.token with
      | more next completed =>
          dsimp only
          rw [ih]
          cases next.feed lexemes with
          | none => rfl
          | some reached => simp [Function.comp_def]
      | finished completed => rfl
      | unexpected => rfl

theorem feed_append_of_eq_some
    {parser next : Parser} {lexemes : List Lexeme} {fields : List Field}
    (h : parser.feed lexemes = some (next, fields)) (others : List Lexeme) :
    parser.feed (lexemes ++ others) =
      (next.feed others).map fun (last, later) => (last, fields ++ later) := by
  rw [feed_append, h, Option.bind_some]

/-- Blanks are not noticed. -/
theorem feed_filter_isSignificant
    (parser : Parser) (lexemes : List Lexeme) :
    parser.feed (lexemes.filter Lexeme.isSignificant) = parser.feed lexemes := by
  induction lexemes generalizing parser with
  | nil => rfl
  | cons lexeme lexemes ih =>
      by_cases h : lexeme.isSignificant = true
      · rw [List.filter_cons_of_pos h, feed, feed]
        cases parser.step lexeme.token with
        | more next completed => simp only [ih]
        | finished completed => rfl
        | unexpected => rfl
      · have hblank : lexeme.token.kind = .whitespace := by
          simpa [Lexeme.isSignificant, Lexeme.token] using h
        rw [List.filter_cons_of_neg h, ih, feed_cons_of_step (parser.step_whitespace hblank)]
        simp

/-- A name is not accepted behind a name, and the parser knows that it is behind one. -/
theorem stage_of_step_identifier
    {parser next : Parser} {lexeme : Lexeme} {completed : Option Field}
    (hname : lexeme.1 = .identifier) (h : parser.step lexeme.token = .more next completed) :
    parser.stage ≠ .name ∧ next.stage = .name := by
  have hsignificant : lexeme.isSignificant = true := by simp [Lexeme.isSignificant, hname]
  have hmoves := moves_of_step hsignificant h
  clear h
  cases hmoves with
  | begin name h => rcases h with h | h <;> simp [h, begin]
  | extend name h => simp [h, extend]
  | slash => cases hname
  | group => cases hname
  | comma => cases hname
  | close => cases hname

/-- The parser accepts no two names in a row. -/
theorem isChain_keptApart_of_feed
    {parser last : Parser} {lexemes : List Lexeme} {fields : List Field}
    (h : parser.feed lexemes = some (last, fields)) :
    lexemes.IsChain Lexeme.KeptApart := by
  induction lexemes generalizing parser fields with
  | nil => exact .nil
  | cons lexeme lexemes ih =>
      obtain ⟨next, completed, later, hstep, hfeed, -⟩ := feed_cons_eq_some_iff.mp h
      refine List.isChain_cons.mpr ⟨?_, ih hfeed⟩
      rintro second hsecond ⟨hname, hother⟩
      obtain ⟨others, rfl⟩ : ∃ others, lexemes = second :: others :=
        ⟨_, (List.cons_head?_tail hsecond).symm⟩
      obtain ⟨_, _, _, hstep', -, -⟩ := feed_cons_eq_some_iff.mp hfeed
      exact (stage_of_step_identifier hother hstep').1 (stage_of_step_identifier hname hstep).2

/-! ## Reading tokens to the end -/

/-- What comes of the tokens: the fields completed, or the first token that is not accepted. -/
def readTokens (parser : Parser) : List Token → Except SyntaxError (List Field)
  | [] => .ok []
  | token :: tokens =>
    match parser.step token with
    | .more next completed => (next.readTokens tokens).map (completed.toList ++ ·)
    | .finished completed => .ok completed.toList
    | .unexpected => .error ⟨token⟩

theorem readTokens_cons_of_step
    {parser next : Parser} {token : Token} {completed : Option Field}
    (h : parser.step token = .more next completed) (tokens : List Token) :
    parser.readTokens (token :: tokens) =
      (next.readTokens tokens).map (completed.toList ++ ·) := by
  rw [readTokens, h]

theorem readTokens_append_of_feed
    {parser next : Parser} {front : List Token} {fields : List Field}
    (h : parser.feed (front.map Token.lexeme) = some (next, fields)) (back : List Token) :
    parser.readTokens (front ++ back) = (next.readTokens back).map (fields ++ ·) := by
  induction front generalizing parser fields with
  | nil =>
      obtain ⟨rfl, rfl⟩ : parser = next ∧ [] = fields := by simpa using h
      rw [List.nil_append]
      cases parser.readTokens back <;> rfl
  | cons token front ih =>
      obtain ⟨after, completed, later, hstep, hfeed, rfl⟩ := feed_cons_eq_some_iff.mp h
      rw [step_token_lexeme] at hstep
      rw [List.cons_append, readTokens_cons_of_step hstep, ih hfeed]
      cases next.readTokens back <;> simp [Except.map]

/-- A token that is not accepted is the error, whatever follows it. -/
theorem readTokens_eq_error
    {parser last : Parser} {front : List Token} {fields : List Field} {token : Token}
    (hfeed : parser.feed (front.map Token.lexeme) = some (last, fields))
    (hstep : last.step token = .unexpected) (back : List Token) :
    parser.readTokens (front ++ token :: back) = .error ⟨token⟩ := by
  rw [readTokens_append_of_feed hfeed, readTokens, hstep]
  rfl

/-- In front of an error all tokens are accepted. -/
theorem exists_front_of_readTokens_eq_error
    {parser : Parser} {tokens : List Token} {error : SyntaxError}
    (h : parser.readTokens tokens = .error error) :
    ∃ front back last fields, tokens = front ++ error.token :: back ∧
      parser.feed (front.map Token.lexeme) = some (last, fields) ∧
      last.step error.token = .unexpected := by
  induction tokens generalizing parser with
  | nil => cases h
  | cons token tokens ih =>
      cases hstep : parser.step token with
      | more next completed =>
          rw [readTokens_cons_of_step hstep] at h
          cases hread : next.readTokens tokens with
          | ok fields => rw [hread] at h; cases h
          | error inner =>
              obtain rfl : inner = error := by
                rw [hread] at h
                cases h
                rfl
              obtain ⟨front, back, last, fields, rfl, hfeed, hunexpected⟩ := ih hread
              refine ⟨token :: front, back, last, completed.toList ++ fields, rfl, ?_, hunexpected⟩
              rw [List.map_cons, feed_cons_of_step (by rwa [step_token_lexeme]), hfeed]
              rfl
      | finished completed => rw [readTokens, hstep] at h; cases h
      | unexpected =>
          rw [readTokens, hstep] at h
          cases h
          exact ⟨[], tokens, parser, [], rfl, rfl, hstep⟩

/-- The fields read are those completed on the way and the one that the end completes. -/
theorem readTokens_eq_ok_iff
    {parser : Parser} {tokens : List Token} {fields : List Field}
    (htokens : ∀ token ∈ tokens, token.kind ≠ .endOfInput) (position : Nat) :
    parser.readTokens (tokens ++ [.endOfInput position]) = .ok fields ↔
      ∃ last completed, parser.feed (tokens.map Token.lexeme) = some (last, completed) ∧
        last.Complete ∧ fields = completed ++ last.pending.toList := by
  induction tokens generalizing parser fields with
  | nil =>
      have hkind : (Token.endOfInput position).kind = .endOfInput := rfl
      have hend := parser.step_endOfInput hkind
      by_cases hcomplete : parser.Complete
      · simp [readTokens, hend.1 hcomplete, hcomplete, eq_comm]
      · simp [readTokens, hend.2 hcomplete, hcomplete]
  | cons token tokens ih =>
      rw [List.forall_mem_cons] at htokens
      rw [List.cons_append, List.map_cons]
      cases hstep : parser.step token with
      | more next completed =>
          rw [readTokens_cons_of_step hstep, feed_cons_of_step (by rwa [step_token_lexeme])]
          constructor
          · intro h
            cases hread : next.readTokens (tokens ++ [.endOfInput position]) with
            | error error => rw [hread] at h; cases h
            | ok later =>
                rw [hread] at h
                obtain ⟨last, between, hfeed, hcomplete, rfl⟩ := (ih htokens.2).mp hread
                refine ⟨last, completed.toList ++ between, by rw [hfeed]; rfl, hcomplete, ?_⟩
                cases h
                rw [List.append_assoc]
          · rintro ⟨last, all, hmap, hcomplete, rfl⟩
            obtain ⟨⟨last, between⟩, hfeed, hpair⟩ := Option.map_eq_some_iff.mp hmap
            cases hpair
            rw [(ih htokens.2).mpr ⟨last, between, hfeed, hcomplete, rfl⟩, List.append_assoc]
            rfl
      | finished completed => exact absurd (kind_of_step_eq_finished hstep) htokens.1
      | unexpected => simp [feed, readTokens, step_token_lexeme, hstep]

end Parser

/-! ## Whole selectors -/

/-- A run reads all tokens and the end token, as far as it gets. -/
theorem Parser.result_run
    (parser : Parser) (lexer : Lexer) :
    (parser.run lexer).result = parser.readTokens (lexer.tokens ++ [lexer.endToken]) := by
  induction lexer using Lexer.rest_induction generalizing parser with
  | atEnd lexer hend =>
      have hpull := Lexer.pull_of_rest_eq_nil hend
      rw [Lexer.tokens_of_rest_eq_nil hend, List.nil_append, ← hpull, Parser.readTokens, Parser.run]
      split
      next next completed hstep =>
        have hkind : lexer.pull.1.kind = .endOfInput := by rw [hpull]; rfl
        exact absurd hstep (parser.step_ne_more_of_end hkind next completed)
      next completed hstep => rw [hstep]
      next hstep => rw [hstep]
  | pull lexer hrest ih =>
      rw [Lexer.tokens_of_rest_ne_nil hrest, List.cons_append, Parser.readTokens, Parser.run,
        ← lexer.endToken_pull]
      split
      next next completed hstep =>
        rw [hstep]
        exact congrArg (Except.map (completed.toList ++ ·)) (ih next)
      next completed hstep => rw [hstep]
      next hstep => rw [hstep]

end Selector

namespace FieldSet

open Selector

theorem parse_eq_readTokens
    (source : String) :
    parse source =
      (Parser.initial.readTokens
        ((Lexer.ofString source).tokens ++ [.endOfInput source.length])).map FieldSet.mk := by
  have hend : (Lexer.ofString source).endToken = .endOfInput source.length := by
    simp [Lexer.endToken, Lexer.ofString, String.length_toList]
  rw [parse, Selector.read, Parser.result_run, hend]

/-- A selector is accepted when all its lexemes are and it may end behind them. -/
theorem parse_eq_ok_iff
    (source : String) (set : FieldSet) :
    parse source = .ok set ↔
      ∃ last completed,
        Parser.initial.feed (Lexer.ofString source).lexemes = some (last, completed) ∧
          last.Complete ∧ set.fields = completed ++ last.pending.toList := by
  rw [Lexer.lexemes, Parser.feed_filter_isSignificant, parse_eq_readTokens,
    ← Parser.readTokens_eq_ok_iff (fun _ => Lexer.kind_ne_endOfInput_of_mem_tokens) source.length]
  cases Parser.initial.readTokens
      ((Lexer.ofString source).tokens ++ [.endOfInput source.length]) with
  | ok fields =>
      constructor
      · rintro ⟨⟩
        rfl
      · rintro ⟨⟩
        rfl
  | error error =>
      constructor
      · rintro ⟨⟩
      · rintro ⟨⟩

end FieldSet

end FieldMask
