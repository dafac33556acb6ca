import FieldMask.Selector.Lexer
import Mathlib.Data.List.TakeWhile

/-!
# Tokens of a text

Every character belongs to tokens of one kind only, and a token is either one delimiter or a run of
characters of its kind.  So the first token of a text does not change when more text follows, unless the
token reaches up to the end; and it does not change when text behind it is cut off.

For all tokens of a text this means: the text in front of a token has the tokens in front of it
(`Lexer.tokens_take`), and a longer text begins with the same tokens, of which only the last may be longer
(`Lexer.tokens_append`).  A delimiter keeps the tokens on both sides of it apart
(`Lexer.tokens_append_of_not_continuedBy`), and a text has the same tokens anywhere, but for their positions
(`Lexer.tokens_moved`).
-/

namespace FieldMask.Selector

/-! ## Kinds of characters -/

/-- The kind of the tokens in which a character occurs. -/
def kindOf (c : Char) : Kind :=
  (Kind.ofDelimiter? c).getD (if isBlank c then .whitespace else .identifier)

/-- Whether the tokens of a kind are runs of characters. -/
def Kind.isRun : Kind → Bool
  | .identifier | .whitespace => true
  | _ => false

/-- Whether a token of this kind goes on with the character. -/
def Kind.continuedBy (kind : Kind) (c : Char) : Bool :=
  kind.isRun && kindOf c == kind

theorem isRun_of_ofDelimiter?
    {c : Char} {kind : Kind} (h : Kind.ofDelimiter? c = some kind) :
    kind.isRun = false := by
  unfold Kind.ofDelimiter? at h
  split at h <;> simp_all <;> subst h <;> rfl

theorem ofDelimiter?_of_isBlank
    {c : Char} (h : isBlank c = true) :
    Kind.ofDelimiter? c = none := by
  simp only [isBlank, Bool.or_eq_true, beq_iff_eq] at h
  rcases h with ((rfl | rfl) | rfl) | rfl <;> rfl

theorem isBlank_iff_kindOf
    (c : Char) :
    isBlank c = true ↔ kindOf c = .whitespace := by
  constructor
  · intro h
    simp [kindOf, ofDelimiter?_of_isBlank h, h]
  · intro h
    cases hdelimiter : Kind.ofDelimiter? c with
    | none =>
        by_contra hblank
        simp [kindOf, hdelimiter, hblank] at h
    | some kind =>
        have hkind : kind = .whitespace := by simpa [kindOf, hdelimiter] using h
        have hrun := isRun_of_ofDelimiter? hdelimiter
        rw [hkind] at hrun
        cases hrun

theorem isNameChar_iff_kindOf
    (c : Char) :
    isNameChar c = true ↔ kindOf c = .identifier := by
  unfold kindOf isNameChar
  cases h : Kind.ofDelimiter? c with
  | none => simp
  | some kind =>
      have hne : kind ≠ .identifier := by
        rintro rfl
        cases isRun_of_ofDelimiter? h
      simp [hne]

theorem kindOf_ne_endOfInput
    (c : Char) :
    kindOf c ≠ .endOfInput := by
  unfold kindOf
  cases h : Kind.ofDelimiter? c with
  | none => by_cases hblank : isBlank c = true <;> simp [hblank]
  | some kind => simpa using Kind.ofDelimiter?_ne_endOfInput h

theorem continuedBy_whitespace :
    Kind.whitespace.continuedBy = isBlank := by
  funext c
  rw [Bool.eq_iff_iff, isBlank_iff_kindOf]
  simp [Kind.continuedBy, Kind.isRun]

theorem continuedBy_identifier :
    Kind.identifier.continuedBy = isNameChar := by
  funext c
  rw [Bool.eq_iff_iff, isNameChar_iff_kindOf]
  simp [Kind.continuedBy, Kind.isRun]

theorem kindOf_of_continuedBy
    {kind : Kind} {c : Char} (h : kind.continuedBy c = true) :
    kindOf c = kind := by
  simp only [Kind.continuedBy, Bool.and_eq_true, beq_iff_eq] at h
  exact h.2

/-- The first token of a text is of the kind of the first character and goes on as long as it can. -/
theorem lexeme_cons
    (c : Char) (rest : List Char) :
    lexeme (c :: rest) = (kindOf c, c :: rest.takeWhile (kindOf c).continuedBy) := by
  have hnone (kind : Kind) (h : kind.isRun = false) :
      rest.takeWhile kind.continuedBy = [] := by
    cases rest <;> simp [Kind.continuedBy, h]
  rw [lexeme.eq_def]
  dsimp only
  cases h : Kind.ofDelimiter? c with
  | some kind =>
      have hkind : kindOf c = kind := by simp [kindOf, h]
      rw [hkind, hnone kind (isRun_of_ofDelimiter? h)]
  | none =>
      by_cases hblank : isBlank c = true
      · have hkind : kindOf c = .whitespace := (isBlank_iff_kindOf c).mp hblank
        simp [hblank, hkind, continuedBy_whitespace]
      · have hkind : kindOf c = .identifier := by simp [kindOf, h, hblank]
        simp [hblank, hkind, continuedBy_identifier]

/-! ## The first token and the text around it -/

def Kind.Fits (kind : Kind) (text : List Char) : Prop :=
  text ≠ [] ∧ (∀ c ∈ text, kindOf c = kind) ∧ (kind.isRun = true ∨ text.length = 1)

theorem fits_lexeme
    {text : List Char} (h : text ≠ []) :
    (lexeme text).1.Fits (lexeme text).2 := by
  cases text with
  | nil => exact absurd rfl h
  | cons c rest =>
      rw [lexeme_cons]
      refine ⟨by simp, ?_, ?_⟩
      · intro d hd
        rcases List.mem_cons.mp hd with rfl | hd
        · rfl
        · exact kindOf_of_continuedBy (List.mem_takeWhile_imp hd)
      · cases hrun : (kindOf c).isRun with
        | true => exact Or.inl rfl
        | false =>
            right
            cases rest <;> simp [Kind.continuedBy, hrun]

/-- A token ends where its kind is not continued. -/
theorem lexeme_append
    {kind : Kind} {text rest : List Char} (hfits : kind.Fits text)
    (hrest : ∀ c ∈ rest.head?, kind.continuedBy c = false) :
    lexeme (text ++ rest) = (kind, text) := by
  obtain ⟨hne, hall, hlength⟩ := hfits
  have hstop : rest.takeWhile kind.continuedBy = [] := by
    cases rest with
    | nil => rfl
    | cons c rest => simp [hrest c rfl]
  cases text with
  | nil => exact absurd rfl hne
  | cons c run =>
      have hc : kindOf c = kind := hall c List.mem_cons_self
      rw [List.cons_append, lexeme_cons, hc]
      rcases hlength with hrun | hlength
      · have hcontinued : ∀ d ∈ run, kind.continuedBy d = true := by
          intro d hd
          simp [Kind.continuedBy, hrun, hall d (List.mem_cons_of_mem c hd)]
        rw [List.takeWhile_append_of_pos hcontinued, hstop, List.append_nil]
      · have hnil : run = [] := by simpa using hlength
        rw [hnil, List.nil_append, hstop]

theorem lexeme_append_kind
    {text : List Char} (h : text ≠ []) (more : List Char) :
    (lexeme (text ++ more)).1 = (lexeme text).1 := by
  cases text with
  | nil => exact absurd rfl h
  | cons c rest => rw [List.cons_append, lexeme_cons, lexeme_cons]

/-- More text does not change a first token that something follows already. -/
theorem lexeme_append_of_lt
    {text : List Char} (h : (lexeme text).2.length < text.length) (more : List Char) :
    lexeme (text ++ more) = lexeme text := by
  cases text with
  | nil => simp at h
  | cons c rest =>
      rw [lexeme_cons] at h
      have hlt : (rest.takeWhile (kindOf c).continuedBy).length ≠ rest.length := by
        simp only [List.length_cons] at h
        omega
      rw [List.cons_append, lexeme_cons, lexeme_cons, List.takeWhile_append, if_neg hlt]

theorem length_lexeme_le
    (text : List Char) :
    (lexeme text).2.length ≤ text.length := by
  have happend := congrArg List.length (lexeme_append_drop text)
  rw [List.length_append] at happend
  omega

/-- Text that no token goes on with does not change the first token, even if that reaches up to the end. -/
theorem lexeme_append_of_not_continuedBy
    {text more : List Char} (h : text ≠ [])
    (hmore : ∀ c ∈ more.head?, ∀ kind : Kind, kind.continuedBy c = false) :
    lexeme (text ++ more) = lexeme text := by
  rcases Nat.lt_or_eq_of_le (length_lexeme_le text) with hlt | hlength
  · exact lexeme_append_of_lt hlt more
  · have hall : (lexeme text).2 = text := by
      have happend := lexeme_append_drop text
      rwa [hlength, List.drop_length, List.append_nil] at happend
    have hfits := fits_lexeme h
    rw [hall] at hfits
    rw [lexeme_append hfits fun c hc => hmore c hc _]
    exact Prod.ext rfl hall.symm

/-- Cutting text off behind the first token does not change the token. -/
theorem lexeme_take
    {text : List Char} {n : Nat} (h : (lexeme text).2.length ≤ n) :
    lexeme (text.take n) = lexeme text := by
  cases text with
  | nil => simp
  | cons c rest =>
      rw [lexeme_cons] at h
      obtain ⟨m, rfl⟩ : ∃ m, n = m + 1 := ⟨n - 1, by simp only [List.length_cons] at h; omega⟩
      have hm : (rest.takeWhile (kindOf c).continuedBy).length ≤ m := by
        simpa using h
      rw [List.take_succ_cons, lexeme_cons, lexeme_cons, ← List.take_takeWhile,
        List.take_of_length_le hm]

/-! ## All tokens of a text -/

/-- A token with more characters in front of it. -/
def Token.moved (count : Nat) (token : Token) : Token :=
  { token with position := token.position + count }

namespace Lexer

theorem pull_fits
    {lexer : Lexer} (h : lexer.rest ≠ []) :
    lexer.pull.1.kind.Fits lexer.pull.1.text.toList := by
  rw [pull_kind, pull_text, String.toList_ofList]
  exact fits_lexeme h

theorem pull_kind_ne_endOfInput
    {lexer : Lexer} (h : lexer.rest ≠ []) :
    lexer.pull.1.kind ≠ .endOfInput := by
  rwa [pull_kind, ne_eq, lexeme_kind_eq_endOfInput_iff]

/-- Reading a text token by token, from its end. -/
@[elab_as_elim]
theorem rest_induction
    {motive : Lexer → Prop}
    (atEnd : ∀ lexer : Lexer, lexer.rest = [] → motive lexer)
    (pull : ∀ lexer : Lexer, lexer.rest ≠ [] → motive lexer.pull.2 → motive lexer)
    (lexer : Lexer) :
    motive lexer := by
  fun_induction Lexer.drain lexer with
  | case1 lexer hend =>
      apply atEnd
      rwa [pull_kind, lexeme_kind_eq_endOfInput_iff] at hend
  | case2 lexer hend tokens last hdrain ih =>
      apply pull
      · rwa [pull_kind, lexeme_kind_eq_endOfInput_iff] at hend
      · exact ih

theorem tokens_of_rest_eq_nil
    {lexer : Lexer} (h : lexer.rest = []) :
    lexer.tokens = [] := by
  rw [tokens, drain, if_pos (by rw [pull_kind, h]; rfl)]

theorem tokens_of_rest_ne_nil
    {lexer : Lexer} (h : lexer.rest ≠ []) :
    lexer.tokens = lexer.pull.1 :: lexer.pull.2.tokens := by
  rw [tokens, drain, if_neg (pull_kind_ne_endOfInput h)]
  rfl

theorem rest_ne_nil_of_tokens
    {lexer : Lexer} {token : Token} {tokens : List Token} (h : lexer.tokens = token :: tokens) :
    lexer.rest ≠ [] := by
  intro hnil
  rw [tokens_of_rest_eq_nil hnil] at h
  cases h

theorem fits_of_mem_tokens
    {lexer : Lexer} {token : Token} (h : token ∈ lexer.tokens) :
    token.kind.Fits token.text.toList := by
  induction lexer using rest_induction with
  | atEnd lexer hend => simp [tokens_of_rest_eq_nil hend] at h
  | pull lexer hrest ih =>
      rw [tokens_of_rest_ne_nil hrest, List.mem_cons] at h
      rcases h with rfl | h
      · exact pull_fits hrest
      · exact ih h

def endToken (lexer : Lexer) : Token :=
  .endOfInput (lexer.position + lexer.rest.length)

theorem pull_of_rest_eq_nil
    {lexer : Lexer} (h : lexer.rest = []) :
    lexer.pull.1 = lexer.endToken := by
  simp [pull, endToken, Token.endOfInput, h, lexeme]

theorem endToken_pull
    (lexer : Lexer) :
    lexer.pull.2.endToken = lexer.endToken := by
  have hlength := congrArg List.length (lexeme_append_drop lexer.rest)
  have hposition : lexer.pull.2.position = lexer.position + (lexeme lexer.rest).2.length := rfl
  rw [List.length_append] at hlength
  rw [endToken, endToken, rest_pull, hposition, ← hlength, Nat.add_assoc]

theorem kind_ne_endOfInput_of_mem_tokens
    {lexer : Lexer} {token : Token} (h : token ∈ lexer.tokens) :
    token.kind ≠ .endOfInput := by
  obtain ⟨c, hc⟩ := List.exists_mem_of_ne_nil _ (fits_of_mem_tokens h).1
  rw [← (fits_of_mem_tokens h).2.1 c hc]
  exact kindOf_ne_endOfInput c

/-- Nothing but the positions of the tokens depends on the characters in front of a text. -/
theorem tokens_moved
    (lexer : Lexer) (count : Nat) :
    Lexer.tokens ⟨lexer.rest, lexer.position + count⟩ = lexer.tokens.map (Token.moved count) := by
  induction lexer using rest_induction with
  | atEnd lexer hend =>
      have hmoved : (Lexer.mk lexer.rest (lexer.position + count)).rest = [] := hend
      rw [tokens_of_rest_eq_nil hmoved, tokens_of_rest_eq_nil hend, List.map_nil]
  | pull lexer hrest ih =>
      have hmoved : (Lexer.mk lexer.rest (lexer.position + count)).rest ≠ [] := hrest
      have hpull : (Lexer.mk lexer.rest (lexer.position + count)).pull =
          (lexer.pull.1.moved count, ⟨lexer.pull.2.rest, lexer.pull.2.position + count⟩) := by
        simp only [pull, Token.moved, Nat.add_right_comm]
      rw [tokens_of_rest_ne_nil hmoved, tokens_of_rest_ne_nil hrest, hpull, ih, List.map_cons]

/-- Text that no token goes on with has its own tokens behind those in front. -/
theorem tokens_append_of_not_continuedBy
    {more : List Char} (hmore : ∀ c ∈ more.head?, ∀ kind : Kind, kind.continuedBy c = false)
    (lexer : Lexer) :
    Lexer.tokens ⟨lexer.rest ++ more, lexer.position⟩ =
      lexer.tokens ++ Lexer.tokens ⟨more, lexer.position + lexer.rest.length⟩ := by
  induction lexer using rest_induction with
  | atEnd lexer hend =>
      rw [tokens_of_rest_eq_nil hend, hend]
      rfl
  | pull lexer hrest ih =>
      have hne : (Lexer.mk (lexer.rest ++ more) lexer.position).rest ≠ [] := by simp [hrest]
      have hpull : (Lexer.mk (lexer.rest ++ more) lexer.position).pull =
          (lexer.pull.1, ⟨lexer.pull.2.rest ++ more, lexer.pull.2.position⟩) := by
        simp only [pull, lexeme_append_of_not_continuedBy hrest hmore,
          List.drop_append_of_le_length (length_lexeme_le lexer.rest)]
      have hposition : lexer.pull.2.position + lexer.pull.2.rest.length =
          lexer.position + lexer.rest.length :=
        congrArg Token.position lexer.endToken_pull
      rw [tokens_of_rest_ne_nil hne, tokens_of_rest_ne_nil hrest, hpull, ih, hposition,
        List.cons_append]

/-- The text in front of a token has the tokens in front of it. -/
theorem tokens_take
    {lexer : Lexer} {front back : List Token} {token : Token}
    (h : lexer.tokens = front ++ token :: back) :
    lexer.position ≤ token.position ∧
      Lexer.tokens ⟨lexer.rest.take (token.position - lexer.position), lexer.position⟩ = front := by
  induction front generalizing lexer with
  | nil =>
      have hrest := rest_ne_nil_of_tokens h
      rw [tokens_of_rest_ne_nil hrest, List.nil_append, List.cons.injEq] at h
      rw [← h.1, pull_position]
      exact ⟨Nat.le_refl _, by simp [tokens_of_rest_eq_nil]⟩
  | cons first front ih =>
      have hrest := rest_ne_nil_of_tokens h
      rw [tokens_of_rest_ne_nil hrest, List.cons_append, List.cons.injEq] at h
      obtain ⟨rfl, h⟩ := h
      obtain ⟨hle, htokens⟩ := ih h
      have hpull : lexer.pull.2.position = lexer.position + (lexeme lexer.rest).2.length := rfl
      rw [hpull] at hle htokens
      refine ⟨by omega, ?_⟩
      have hlexeme : lexeme (lexer.rest.take (token.position - lexer.position)) =
          lexeme lexer.rest :=
        lexeme_take (by omega)
      have hne : lexer.rest.take (token.position - lexer.position) ≠ [] := by
        rw [ne_eq, ← lexeme_eq_nil_iff, hlexeme, lexeme_eq_nil_iff]
        exact hrest
      rw [tokens_of_rest_ne_nil hne, List.cons.injEq]
      constructor
      · simp only [pull, hlexeme]
      · rw [← htokens, rest_pull, pull, hlexeme]
        simp only [List.drop_take, Nat.sub_add_eq]

/-- When more text follows, the tokens of a text stay, up to the length of the last one. -/
theorem tokens_append
    {lexer : Lexer} {front back : List Token} {token : Token}
    (h : lexer.tokens = front ++ token :: back) (more : List Char) :
    ∃ token' back',
      Lexer.tokens ⟨lexer.rest ++ more, lexer.position⟩ = front ++ token' :: back' ∧
        token'.kind = token.kind ∧ token'.position = token.position := by
  induction front generalizing lexer with
  | nil =>
      have hrest := rest_ne_nil_of_tokens h
      rw [tokens_of_rest_ne_nil hrest, List.nil_append, List.cons.injEq] at h
      have hne : lexer.rest ++ more ≠ [] := by simp [hrest]
      refine ⟨_, _, tokens_of_rest_ne_nil hne, ?_, ?_⟩
      · rw [← h.1, pull_kind, pull_kind, lexeme_append_kind hrest]
      · rw [← h.1, pull_position, pull_position]
  | cons first front ih =>
      have hrest := rest_ne_nil_of_tokens h
      rw [tokens_of_rest_ne_nil hrest, List.cons_append, List.cons.injEq] at h
      obtain ⟨rfl, h⟩ := h
      obtain ⟨token', back', htokens, hkind, hposition⟩ := ih h
      have hbehind : lexer.pull.2.rest ≠ [] := by
        intro hnil
        rw [tokens_of_rest_eq_nil hnil] at h
        simp at h
      have hlt : (lexeme lexer.rest).2.length < lexer.rest.length := by
        by_contra hge
        exact hbehind (List.drop_eq_nil_of_le (Nat.le_of_not_lt hge))
      have hlexeme := lexeme_append_of_lt hlt more
      have hne : lexer.rest ++ more ≠ [] := by simp [hrest]
      refine ⟨token', back', ?_, hkind, hposition⟩
      rw [tokens_of_rest_ne_nil hne, List.cons_append, ← htokens, List.cons.injEq]
      constructor
      · simp only [pull, hlexeme]
      · simp only [pull, hlexeme, List.drop_append_of_le_length (Nat.le_of_lt hlt)]

end Lexer

end FieldMask.Selector
