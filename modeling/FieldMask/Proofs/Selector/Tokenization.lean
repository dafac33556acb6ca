import FieldMask.Proofs.Selector.Lexemes

/-!
# Cutting a text and putting it together again

There is one way to cut a text into tokens such that every token fits its kind and no two neighbours could be one
token.  A lexer finds it (`Lexer.cutsInto_tokens`), and putting the texts of such tokens together gives a text
that is cut into just these tokens again (`Lexer.CutsInto.eq_tokens`).

A lexer can be asked in two ways, which differ at the end of the text only.  However the two are mixed, the
answers are the tokens in order and nothing but the end after them, and behind every answer the lexer stands where
the next token begins (`Lexer.answers_eq_mapIdx`).
-/

namespace FieldMask.Selector

/-! ## Tokens that fit and stay apart -/

/-- Whether the text of a token may stand for its kind; for the end there is no such text. -/
def Token.Fits (token : Token) : Prop :=
  match token.kind with
  | .identifier => ∀ c ∈ token.text.toList, isNameChar c = true
  | .whitespace => ∀ c ∈ token.text.toList, isBlank c = true
  | .endOfInput => False
  | .forwardSlash | .leftParen | .rightParen | .comma => token.text = token.kind.symbol

/-- Whether two neighbours are neither two names nor two blanks. -/
def Token.Apart (first second : Token) : Prop :=
  ¬(first.kind = .identifier ∧ second.kind = .identifier) ∧
    ¬(first.kind = .whitespace ∧ second.kind = .whitespace)

theorem Token.fits_iff
    {token : Token} (hne : token.text ≠ "") :
    token.Fits ↔ token.kind.Fits token.text.toList := by
  have hchars : token.text.toList ≠ [] := by simpa using hne
  have hdelimiter (hrun : token.kind.isRun = false) (hend : token.kind ≠ .endOfInput)
      (hblank : token.kind ≠ .whitespace) :
      token.text = token.kind.symbol ↔ token.kind.Fits token.text.toList := by
    constructor
    · intro htext
      rw [htext]
      exact (wellFormed_symbol hrun hend).2
    · intro hfits
      have hsignificant : Lexeme.isSignificant (token.kind, token.text) = true := by
        simpa [Lexeme.isSignificant] using hblank
      exact Lexeme.WellFormed.text_eq_symbol ⟨hsignificant, hfits⟩ hrun
  cases hkind : token.kind with
  | identifier => simp [Token.Fits, hkind, Kind.Fits, Kind.isRun, isNameChar_iff_kindOf, hne]
  | whitespace => simp [Token.Fits, hkind, Kind.Fits, Kind.isRun, isBlank_iff_kindOf, hne]
  | endOfInput =>
      have hnone : ¬Kind.endOfInput.Fits token.text.toList := by
        intro hfits
        obtain ⟨c, hc⟩ := List.exists_mem_of_ne_nil _ hchars
        exact kindOf_ne_endOfInput c (hfits.2.1 c hc)
      simp [Token.Fits, hkind, hnone]
  | forwardSlash | leftParen | rightParen | comma =>
      rw [Token.Fits, ← hkind]
      simpa [hkind] using hdelimiter (by simp [hkind, Kind.isRun]) (by simp [hkind]) (by simp [hkind])

/-- Neighbours are apart exactly when the first does not go on with the characters of the second. -/
theorem Token.apart_iff
    {first second : Token} {c : Char} (hc : kindOf c = second.kind) :
    first.Apart second ↔ first.kind.continuedBy c = false := by
  rw [Token.Apart, Kind.continuedBy, hc]
  cases first.kind <;> simp [Kind.isRun]

namespace Lexer

/-! ## Cutting -/

/-- Whether what remains is cut into these tokens: none is empty and nothing is lost, each stands where the ones in
front of it end and fits its kind, and neighbours are apart. -/
structure CutsInto (lexer : Lexer) (tokens : List Token) : Prop where
  text_ne_empty : ∀ token ∈ tokens, token.text ≠ ""
  texts_eq : tokens.flatMap (·.text.toList) = lexer.rest
  position_eq : ∀ front token back, tokens = front ++ token :: back →
    token.position = lexer.position + (front.flatMap (·.text.toList)).length
  fits : ∀ token ∈ tokens, token.Fits
  apart : tokens.IsChain Token.Apart

theorem cutsInto_nil_iff
    (lexer : Lexer) :
    lexer.CutsInto [] ↔ lexer.rest = [] := by
  constructor
  · intro h
    simpa using h.texts_eq.symm
  · intro hend
    exact ⟨by simp, by simp [hend], by simp, by simp, List.isChain_nil⟩

/-- The tokens of a text are a first token and the tokens of what remains behind it. -/
theorem cutsInto_cons_iff
    (lexer : Lexer) (token : Token) (tokens : List Token) :
    lexer.CutsInto (token :: tokens) ↔
      token.text ≠ "" ∧ token.Fits ∧ token.position = lexer.position ∧
        (∀ next ∈ tokens.head?, token.Apart next) ∧
        ∃ rest, lexer.rest = token.text.toList ++ rest ∧
          CutsInto ⟨rest, lexer.position + token.text.toList.length⟩ tokens := by
  constructor
  · intro h
    have happart := List.isChain_cons.mp h.apart
    refine ⟨h.text_ne_empty token List.mem_cons_self, h.fits token List.mem_cons_self,
      by simpa using h.position_eq [] token tokens rfl, happart.1, _, h.texts_eq.symm, ?_⟩
    refine ⟨fun other hother => h.text_ne_empty other (List.mem_cons_of_mem _ hother), rfl, ?_,
      fun other hother => h.fits other (List.mem_cons_of_mem _ hother), happart.2⟩
    intro front other back htokens
    have hposition := h.position_eq (token :: front) other back (by rw [htokens, List.cons_append])
    rw [hposition, List.flatMap_cons, List.length_append, Nat.add_assoc]
  · rintro ⟨hne, hfits, hposition, hnext, rest, hrest, h⟩
    refine ⟨List.forall_mem_cons.mpr ⟨hne, h.text_ne_empty⟩, ?_, ?_,
      List.forall_mem_cons.mpr ⟨hfits, h.fits⟩, List.isChain_cons.mpr ⟨hnext, h.apart⟩⟩
    · rw [List.flatMap_cons, h.texts_eq, hrest]
    · intro front other back htokens
      cases front with
      | nil =>
          obtain ⟨rfl, -⟩ := List.cons.inj htokens
          simpa using hposition
      | cons first front =>
          obtain ⟨rfl, hothers⟩ := List.cons.inj htokens
          rw [h.position_eq front other back hothers, List.flatMap_cons, List.length_append,
            Nat.add_assoc]

theorem drop_length_takeWhile
    (p : Char → Bool) (text : List Char) :
    text.drop (text.takeWhile p).length = text.dropWhile p := by
  calc
    text.drop (text.takeWhile p).length =
        (text.takeWhile p ++ text.dropWhile p).drop (text.takeWhile p).length := by
      rw [List.takeWhile_append_dropWhile]
    _ = text.dropWhile p := List.drop_left

/-- A token is as long as it can be. -/
theorem continuedBy_pull_eq_false
    {lexer : Lexer} {c : Char} (hc : c ∈ lexer.pull.2.rest.head?) :
    lexer.pull.1.kind.continuedBy c = false := by
  rw [rest_pull] at hc
  rw [pull_kind]
  cases hrest : lexer.rest with
  | nil => simp [hrest] at hc
  | cons first rest =>
      rw [hrest, lexeme_cons, List.length_cons, List.drop_succ_cons, drop_length_takeWhile] at hc
      rw [lexeme_cons]
      have hhead := List.head?_dropWhile_not (kindOf first).continuedBy rest
      rw [hc] at hhead
      simpa using hhead

/-- The tokens of a text, as a lexer gives them, cut it. -/
theorem cutsInto_tokens
    (lexer : Lexer) :
    lexer.CutsInto lexer.tokens := by
  induction lexer using rest_induction with
  | atEnd lexer hend => rwa [tokens_of_rest_eq_nil hend, cutsInto_nil_iff]
  | pull lexer hrest ih =>
      have hfits := pull_fits hrest
      have hne : lexer.pull.1.text ≠ "" := by simpa using hfits.1
      have htext : lexer.rest = lexer.pull.1.text.toList ++ lexer.pull.2.rest := by
        rw [pull_text, String.toList_ofList, rest_pull, lexeme_append_drop]
      have hbehind : lexer.pull.2 =
          ⟨lexer.pull.2.rest, lexer.position + lexer.pull.1.text.toList.length⟩ := by
        rw [pull_text, String.toList_ofList]
        rfl
      rw [tokens_of_rest_ne_nil hrest, cutsInto_cons_iff]
      refine ⟨hne, (Token.fits_iff hne).mpr hfits, pull_position lexer, ?_, _, htext, hbehind ▸ ih⟩
      intro next hnext
      have hnextRest : lexer.pull.2.rest ≠ [] := by
        intro hnil
        simp [tokens_of_rest_eq_nil hnil] at hnext
      rw [tokens_of_rest_ne_nil hnextRest] at hnext
      obtain rfl : lexer.pull.2.pull.1 = next := by simpa using hnext
      obtain ⟨c, rest, hc⟩ := List.exists_cons_of_ne_nil hnextRest
      have hkind : kindOf c = lexer.pull.2.pull.1.kind := by rw [pull_kind, hc, lexeme_cons]
      rw [Token.apart_iff hkind]
      exact continuedBy_pull_eq_false (by rw [hc]; rfl)

/-- A lexer cuts tokens that fit and are apart where they were put together. -/
theorem CutsInto.eq_tokens
    {lexer : Lexer} {tokens : List Token} (h : lexer.CutsInto tokens) :
    tokens = lexer.tokens := by
  induction tokens generalizing lexer with
  | nil => rw [tokens_of_rest_eq_nil ((cutsInto_nil_iff lexer).mp h)]
  | cons token tokens ih =>
      obtain ⟨hne, hfits, hposition, hnext, rest, hrest, h⟩ := (cutsInto_cons_iff _ _ _).mp h
      rw [Token.fits_iff hne] at hfits
      have hstop : ∀ c ∈ rest.head?, token.kind.continuedBy c = false := by
        intro c hc
        cases tokens with
        | nil =>
            have hnil : rest = [] := (cutsInto_nil_iff _).mp h
            simp [hnil] at hc
        | cons next tokens =>
            obtain ⟨hnextNe, hnextFits, -, -, more, hmore, -⟩ := (cutsInto_cons_iff _ _ _).mp h
            rw [Token.fits_iff hnextNe] at hnextFits
            have hmem : c ∈ next.text.toList := by
              apply List.mem_of_mem_head?
              dsimp only at hmore
              rwa [hmore, List.head?_append_of_ne_nil _ hnextFits.1] at hc
            exact (Token.apart_iff (hnextFits.2.1 c hmem)).mp (hnext next rfl)
      have hlexeme : lexeme lexer.rest = (token.kind, token.text.toList) := by
        rw [hrest, lexeme_append hfits hstop]
      have hpull : lexer.pull =
          (token, ⟨rest, lexer.position + token.text.toList.length⟩) := by
        rw [pull, hlexeme, hrest, ← hposition]
        simp
      have hrestNe : lexer.rest ≠ [] := by simp [hrest, hfits.1]
      rw [tokens_of_rest_ne_nil hrestNe, hpull, ← ih h]

/-! ## Asking -/

end Lexer

/-- The ways to ask for the next token: at the end of the text, one gives the end token and the other nothing. -/
inductive Ask where
  | pull
  | next
  deriving DecidableEq, Repr

/-- The answer at the end of a text. -/
def Ask.atEnd (last : Token) : Ask → Option Token
  | .pull => some last
  | .next => none

namespace Lexer

def answer (lexer : Lexer) : Ask → Option Token × Lexer
  | .pull => (some lexer.pull.1, lexer.pull.2)
  | .next =>
    match lexer.next? with
    | some (token, behind) => (some token, behind)
    | none => (none, lexer)

/-- The answers when a lexer is asked several times, each with the position of the lexer behind it. -/
def answers (lexer : Lexer) : List Ask → List (Option Token × Nat)
  | [] => []
  | ask :: asks =>
    ((lexer.answer ask).1, (lexer.answer ask).2.position) :: (lexer.answer ask).2.answers asks

theorem answer_of_rest_ne_nil
    {lexer : Lexer} (h : lexer.rest ≠ []) (ask : Ask) :
    lexer.answer ask = (some lexer.pull.1, lexer.pull.2) := by
  have hend : lexer.pull.1.isEnd = false := by
    simpa [Token.isEnd] using pull_kind_ne_endOfInput h
  cases ask with
  | pull => rfl
  | next => simp [answer, next?, hend]

theorem answer_of_rest_eq_nil
    {lexer : Lexer} (h : lexer.rest = []) (ask : Ask) :
    lexer.answer ask = (ask.atEnd lexer.endToken, lexer) := by
  obtain ⟨rest, position⟩ := lexer
  obtain rfl : rest = [] := h
  cases ask <;> rfl

/-- A lexer stands where its next token begins, or at the end of the text. -/
theorem position_eq_getD
    (lexer : Lexer) :
    lexer.position = (lexer.tokens[0]?.map Token.position).getD lexer.endToken.position := by
  by_cases hrest : lexer.rest = []
  · simp [tokens_of_rest_eq_nil hrest, endToken, Token.endOfInput, hrest]
  · simp [tokens_of_rest_ne_nil hrest]

/-- However a lexer is asked, the answers are its tokens in order and nothing but the end after them. -/
theorem answers_eq_mapIdx
    (lexer : Lexer) (asks : List Ask) :
    lexer.answers asks = asks.mapIdx fun index ask =>
      (lexer.tokens[index]?.or (ask.atEnd lexer.endToken),
        (lexer.tokens[index + 1]?.map Token.position).getD lexer.endToken.position) := by
  induction asks generalizing lexer with
  | nil => rfl
  | cons ask asks ih =>
      rw [answers, List.mapIdx_cons, ih]
      by_cases hrest : lexer.rest = []
      · have hposition : lexer.endToken.position = lexer.position := by
          simp [endToken, Token.endOfInput, hrest]
        simp [answer_of_rest_eq_nil hrest, tokens_of_rest_eq_nil hrest, hposition]
      · have hposition := lexer.pull.2.position_eq_getD
        rw [endToken_pull] at hposition
        simp only [answer_of_rest_ne_nil hrest, tokens_of_rest_ne_nil hrest, endToken_pull,
          List.getElem?_cons_zero, List.getElem?_cons_succ, Option.some_or, Nat.zero_add, ← hposition]

theorem endToken_ofString
    (source : String) :
    (ofString source).endToken = .endOfInput source.length := by
  simp [endToken, ofString, String.length_toList]

/-- Every text can be cut into tokens, and tokens cut it exactly when they are what a lexer gives for it: those
tokens in order, however it is asked for them, then the end behind all characters of the text over and over, and
always the position where the next token begins. -/
theorem cutsInto_iff_answers
    (source : String) :
    (∃ tokens, (ofString source).CutsInto tokens) ∧
    ∀ tokens, (ofString source).CutsInto tokens ↔
      ∀ asks, (ofString source).answers asks = asks.mapIdx fun index ask =>
        (tokens[index]?.or (ask.atEnd (.endOfInput source.length)),
          (tokens[index + 1]?.map Token.position).getD source.length) := by
  refine ⟨⟨_, cutsInto_tokens _⟩, fun tokens => ⟨?_, ?_⟩⟩
  · intro h asks
    rw [answers_eq_mapIdx, endToken_ofString, h.eq_tokens]
    rfl
  · intro h
    have hsame : tokens = (ofString source).tokens := by
      apply List.ext_getElem?
      intro index
      have hasks := h (List.replicate (index + 1) .next)
      rw [answers_eq_mapIdx, endToken_ofString] at hasks
      have hindex := congrArg (·[index]?) hasks
      simp [Ask.atEnd] at hindex
      exact hindex.1.symm
    rw [hsame]
    exact cutsInto_tokens _

end Lexer

end FieldMask.Selector
