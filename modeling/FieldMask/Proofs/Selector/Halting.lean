import FieldMask.Proofs.Selector.Agreement

/-!
# Every reading comes to an end

A machine asks for the tokens of its text one after the other.  It never asks behind the end token, because no
decision about that token goes on to look for another (`Machine.Sound.pulled_append_toCome`).  A token is longer
than nothing, unless it is the end token; so a machine asks for one token more than the text has characters at
most.

Between one token and the next there are two more moves at most: the one that finds out that a closing
parenthesis stands behind a path, and the one that closes a group.  So no loop goes on for ever, and the machine
halts, well-formed or not as the selector may be (`Machine.halts_within`).
-/

namespace FieldMask.Selector

theorem Lexer.length_tokens_le
    (lexer : Lexer) :
    lexer.tokens.length ≤ lexer.rest.length := by
  induction lexer using rest_induction with
  | atEnd lexer hend => simp [tokens_of_rest_eq_nil hend]
  | pull lexer hrest ih =>
      have hshorter := lexer.length_rest_pull_lt (pull_kind_ne_endOfInput hrest)
      rw [tokens_of_rest_ne_nil hrest, List.length_cons]
      omega

/-- The tokens of a text with the end token behind them are those that pulling gives, up to the end token. -/
theorem Lexer.tokens_append_endToken
    (lexer : Lexer) :
    lexer.tokens ++ [lexer.endToken] =
      lexer.pull.1 :: if lexer.pull.1.kind = .endOfInput then []
        else lexer.pull.2.tokens ++ [lexer.pull.2.endToken] := by
  by_cases hrest : lexer.rest = []
  · have hkind : lexer.pull.1.kind = .endOfInput := by rw [pull_of_rest_eq_nil hrest]; rfl
    rw [tokens_of_rest_eq_nil hrest, if_pos hkind, pull_of_rest_eq_nil hrest, List.nil_append]
  · rw [tokens_of_rest_ne_nil hrest, if_neg (pull_kind_ne_endOfInput hrest), endToken_pull,
      List.cons_append]

namespace Machine

variable {machine next : Machine} {source : String} {count : Nat}

/-! ## Tokens asked for -/

/-- The tokens that a machine may still ask for. -/
def toCome (machine : Machine) : List Token :=
  match machine.control with
  | .seeking _ => machine.lexer.tokens ++ [machine.lexer.endToken]
  | _ =>
    if machine.current.kind = .endOfInput then []
    else machine.lexer.tokens ++ [machine.lexer.endToken]

/-- About the end token a machine decides to halt. -/
theorem Sound.current_ne_endOfInput
    (h : machine.Sound) (hmoves : machine.Moves next) {place later : Place}
    (hcontrol : machine.control = .deciding place) (hnext : next.control = .seeking later) :
    machine.current.kind ≠ .endOfInput := by
  cases hmoves with
  | blank other h => cases h.symm.trans hcontrol
  | find other h => cases h.symm.trans hcontrol
  | close rest depth hclosing => simp [(h.deciding .closing hclosing).2 rfl]
  | turn | closeOutside | finishEmpty | finishName | finishClosing | fail => cases hnext
  | alone _ _ hkind | begin _ _ _ _ hkind | extend _ _ _ _ hkind | slash _ hkind | group _ hkind
  | comma _ _ _ _ hkind => simp [hkind]

theorem Sound.toCome_of_deciding
    (h : machine.Sound) (hmoves : machine.Moves next) {place : Place}
    (hcontrol : machine.control = .deciding place) :
    next.toCome = machine.toCome := by
  have hsame := hmoves.sameText hcontrol
  cases hnext : next.control with
  | seeking later =>
      have hkind := h.current_ne_endOfInput hmoves hcontrol hnext
      simp [toCome, hcontrol, hnext, hsame.lexer, hkind]
  | deciding later | finished | failed =>
      simp [toCome, hcontrol, hnext, hsame.lexer, hsame.current]

/-- Behind the token that it has asked for a machine may ask for all others, unless that was the end token. -/
theorem toCome_pull
    {place : Place} (hcontrol : machine.control = .seeking place) :
    (machine.pull place).toCome =
      if machine.lexer.pull.1.kind = .endOfInput then []
      else machine.lexer.pull.2.tokens ++ [machine.lexer.pull.2.endToken] := by
  by_cases hblank : machine.lexer.pull.1.kind = .whitespace
  · have hkind : machine.lexer.pull.1.kind ≠ .endOfInput := by rw [hblank]; nofun
    simp only [pull_of_blank hblank, toCome, hcontrol, if_neg hkind]
  · simp only [pull_of_found hblank, toCome]

/-- What a sound machine has asked for and what it may still ask for are the same tokens all along. -/
theorem Sound.pulled_append_toCome
    (h : machine.Sound) (hmoves : machine.Moves next) :
    next.pulled ++ next.toCome = machine.pulled ++ machine.toCome := by
  rcases hmoves.seeking_or_deciding with ⟨place, hcontrol, rfl⟩ | ⟨place, hcontrol⟩
  · have hall : machine.toCome = machine.lexer.tokens ++ [machine.lexer.endToken] := by
      simp only [toCome, hcontrol]
    rw [hall, Lexer.tokens_append_endToken, pulled_pull, toCome_pull hcontrol, List.append_assoc,
      List.singleton_append]
  · rw [h.toCome_of_deciding hmoves hcontrol, (hmoves.sameText hcontrol).pulled]

theorem pulled_append_toCome_of_after
    (h : (start source).after count = some machine) :
    machine.pulled ++ machine.toCome =
      (Lexer.ofString source).tokens ++ [(Lexer.ofString source).endToken] :=
  Sound.eq_of_after (fun _ _ h hmoves => h.pulled_append_toCome hmoves) h

theorem length_pulled_le
    (h : (start source).after count = some machine) :
    machine.pulled.length ≤ source.length + 1 := by
  have hlength := congrArg List.length (pulled_append_toCome_of_after h)
  have htokens := (Lexer.ofString source).length_tokens_le
  have hsource : (Lexer.ofString source).rest.length = source.length := String.length_toList
  simp only [List.length_append, List.length_singleton] at hlength
  omega

/-- Once the end token has been asked for no other token is. -/
theorem not_seeking_of_end
    (h : (start source).after count = some machine)
    (hend : ∃ token ∈ machine.pulled, token.kind = .endOfInput) (place : Place) :
    machine.control ≠ .seeking place := by
  intro hcontrol
  -- the end token is still to come, so all that has been asked for are tokens of the text
  have hall := pulled_append_toCome_of_after h
  simp only [toCome, hcontrol, ← List.append_assoc] at hall
  obtain ⟨token, htoken, hkind⟩ := hend
  have hmem : token ∈ (Lexer.ofString source).tokens := by
    rw [← (List.append_inj' hall rfl).1]
    exact List.mem_append_left _ htoken
  exact Lexer.kind_ne_endOfInput_of_mem_tokens hmem hkind

/-! ## Moves between two tokens -/

/-- How many moves are left at most until a machine asks for a token or halts. -/
def slack (machine : Machine) : Nat :=
  match machine.control with
  | .seeking _ => 0
  | .deciding .closing => 1
  | .deciding _ => 2
  | .finished | .failed => 0

theorem slack_le
    (machine : Machine) :
    machine.slack ≤ 2 := by
  unfold slack
  split <;> omega

/-- A decision goes on to another one only behind a path, in front of a closing parenthesis. -/
theorem slack_of_deciding
    (hmoves : machine.Moves next) {place : Place} (hcontrol : machine.control = .deciding place) :
    next.slack + 1 ≤ machine.slack := by
  have hpos : 1 ≤ machine.slack := by
    cases place <;> simp [slack, hcontrol]
  cases hmoves with
  | blank other h => cases h.symm.trans hcontrol
  | find other h => cases h.symm.trans hcontrol
  | turn other h hplace => rcases hplace with rfl | rfl <;> simp [slack, h]
  | alone | begin | extend | slash | group | comma | close => exact hpos
  | closeOutside | finishEmpty | finishName | finishClosing | fail => exact hpos

/-- A move asks for a token, or there is one less to come until one does. -/
theorem slack_of_moves
    (hmoves : machine.Moves next) :
    next.slack + 1 + 3 * machine.pulled.length ≤ machine.slack + 3 * next.pulled.length := by
  rcases hmoves.seeking_or_deciding with ⟨place, hcontrol, rfl⟩ | ⟨place, hcontrol⟩
  · have hslack := (machine.pull place).slack_le
    rw [pulled_pull, List.length_append, List.length_singleton]
    omega
  · have hslack := slack_of_deciding hmoves hcontrol
    rw [(hmoves.sameText hcontrol).pulled]
    omega

/-- There are three moves for each token asked for at most. -/
theorem count_le
    (h : (start source).after count = some machine) :
    count ≤ 3 * machine.pulled.length := by
  have hslack : machine.slack + count ≤ 3 * machine.pulled.length :=
    after_induction (motive := fun count machine => machine.slack + count ≤ 3 * machine.pulled.length)
      (show (start source).slack + 0 ≤ 3 * (start source).pulled.length from Nat.le_refl 0)
      (fun _ _ _ h hmoves => by have hslack := slack_of_moves hmoves; omega) h
  omega

/-! ## Halting -/

/-- A machine moves until it halts, and has then carried out the reading of its selector. -/
theorem exists_reading?
    (source : String) :
    ∃ count last, (start source).after count = some last ∧
      last.reading? = some (read source) := by
  have hbound : ∀ count machine, (start source).after count = some machine →
      count ≤ 3 * (source.length + 1) := by
    intro count machine h
    have hcount := count_le h
    have hpulled := length_pulled_le h
    omega
  obtain ⟨count, last, h, hlast⟩ := exists_last hbound
  exact ⟨count, last, h, reading?_of_after h ((Sound.of_after h).move?_eq_none_iff.mp hlast)⟩

/-- The machine halts on every selector, whether it is well-formed or not: it makes three moves for each token that
it asks for at most, and asks for one token more than there are characters at most and for none behind the end
token.  The reading that it has carried out in the end is the one of the parser. -/
theorem halts_within
    (source : String) :
    (∀ count machine, (start source).after count = some machine →
      count ≤ 3 * machine.pulled.length ∧ machine.pulled.length ≤ source.length + 1 ∧
        ((∃ token ∈ machine.pulled, token.kind = .endOfInput) →
          ∀ place, machine.control ≠ .seeking place)) ∧
    ∃ count last, (start source).after count = some last ∧
      last.reading? = some (read source) :=
  ⟨fun _ _ h => ⟨count_le h, length_pulled_le h, not_seeking_of_end h⟩, exists_reading? source⟩

end Machine

end FieldMask.Selector
