import FieldMask.Proofs.Selector.Tokens
import FieldMask.Selector.Machine

/-!
# The moves of the machine

All that a machine can do in one move is listed once, in `Machine.Moves`, and what holds of the machines of a
run is shown on these moves (`Machine.after_induction`).  A machine that has not halted can always move, unless
it has to take a path from an empty stack (`Machine.move?_eq_none_iff`).
-/

namespace FieldMask.Selector

/-- Whether a path has just come to an end, or goes on. -/
def Place.IsBehind (place : Place) : Prop :=
  place = .behindName ∨ place = .behindClosing

/-- The kinds of token that are not expected at a place inside so many groups. -/
def Place.Refuses (place : Place) (depth : Nat) (kind : Kind) : Prop :=
  match place with
  | .name mayEnd => kind ≠ .identifier ∧ ¬(kind = .endOfInput ∧ mayEnd = true ∧ depth = 0)
  | .behindName => kind = .identifier ∨ kind = .whitespace ∨ kind = .endOfInput ∧ depth ≠ 0
  | .closing => False
  | .behindClosing =>
    kind = .identifier ∨ kind = .forwardSlash ∨ kind = .leftParen ∨ kind = .whitespace ∨
      kind = .endOfInput ∧ depth ≠ 0

namespace Machine

/-! ## One move -/

theorem take?_eq_some_iff
    {machine next : Machine} {asField : Bool} :
    machine.take? asField = some next ↔
      ∃ path stack, machine.stack = path :: stack ∧
        next = { machine with
          stack
          fields := if asField then machine.fields ++ [Field.ofString path] else machine.fields } := by
  unfold take?
  cases machine.stack with
  | nil => simp
  | cons path stack =>
      simp only [Option.some.injEq, List.cons.injEq]
      constructor
      · rintro rfl
        exact ⟨path, stack, ⟨rfl, rfl⟩, rfl⟩
      · rintro ⟨_, _, ⟨rfl, rfl⟩, rfl⟩
        rfl

theorem take?_eq_none_iff
    (machine : Machine) (asField : Bool) :
    machine.take? asField = none ↔ machine.stack = [] := by
  unfold take?
  cases machine.stack <;> simp

/-- The moves that a machine may make. -/
inductive Moves (machine : Machine) : Machine → Prop
  | blank (place : Place) (h : machine.control = .seeking place)
      (hblank : machine.lexer.pull.1.kind = .whitespace) :
      Moves machine { machine with
        lexer := machine.lexer.pull.2
        pulled := machine.pulled ++ [machine.lexer.pull.1] }
  | find (place : Place) (h : machine.control = .seeking place)
      (hfound : machine.lexer.pull.1.kind ≠ .whitespace) :
      Moves machine { machine with
        control := .deciding place
        current := machine.lexer.pull.1
        previous := machine.current.kind
        lexer := machine.lexer.pull.2
        pulled := machine.pulled ++ [machine.lexer.pull.1] }
  | alone (mayEnd : Bool) (h : machine.control = .deciding (.name mayEnd))
      (hkind : machine.current.kind = .identifier) (hstack : machine.stack = []) :
      Moves machine (seek { machine with stack := [machine.current.text] } .behindName)
  | begin (mayEnd : Bool) (base : String) (stack : List String)
      (h : machine.control = .deciding (.name mayEnd))
      (hkind : machine.current.kind = .identifier) (hstack : machine.stack = base :: stack)
      (hinside : 0 < machine.depth ∧ machine.previous ≠ .forwardSlash) :
      Moves machine (seek { machine with
        stack := (base ++ "/" ++ machine.current.text) :: base :: stack } .behindName)
  | extend (mayEnd : Bool) (base : String) (stack : List String)
      (h : machine.control = .deciding (.name mayEnd))
      (hkind : machine.current.kind = .identifier) (hstack : machine.stack = base :: stack)
      (houtside : ¬(0 < machine.depth ∧ machine.previous ≠ .forwardSlash)) :
      Moves machine (seek { machine with
        stack := (base ++ "/" ++ machine.current.text) :: stack } .behindName)
  | slash (h : machine.control = .deciding .behindName)
      (hkind : machine.current.kind = .forwardSlash) :
      Moves machine (machine.seek (.name false))
  | group (h : machine.control = .deciding .behindName)
      (hkind : machine.current.kind = .leftParen) :
      Moves machine (seek { machine with depth := machine.depth + 1 } (.name false))
  | turn (place : Place) (h : machine.control = .deciding place) (hplace : place.IsBehind)
      (hkind : machine.current.kind = .rightParen) :
      Moves machine { machine with control := .deciding .closing }
  | comma (place : Place) (rest : Machine) (h : machine.control = .deciding place)
      (hplace : place.IsBehind) (hkind : machine.current.kind = .comma)
      (htake : machine.take? (place == .behindName) = some rest) :
      Moves machine (rest.seek (.name false))
  | close (rest : Machine) (depth : Nat) (h : machine.control = .deciding .closing)
      (htake : machine.take? (machine.previous == .identifier) = some rest)
      (hdepth : machine.depth = depth + 1) :
      Moves machine (seek { rest with depth } .behindClosing)
  | closeOutside (rest : Machine) (h : machine.control = .deciding .closing)
      (htake : machine.take? (machine.previous == .identifier) = some rest)
      (hdepth : machine.depth = 0) :
      Moves machine rest.fail
  | finishEmpty (h : machine.control = .deciding (.name true))
      (hkind : machine.current.kind = .endOfInput) (hdepth : machine.depth = 0) :
      Moves machine machine.finish
  | finishName (rest : Machine) (h : machine.control = .deciding .behindName)
      (hkind : machine.current.kind = .endOfInput) (hdepth : machine.depth = 0)
      (htake : machine.take? true = some rest) :
      Moves machine rest.finish
  | finishClosing (h : machine.control = .deciding .behindClosing)
      (hkind : machine.current.kind = .endOfInput) (hdepth : machine.depth = 0) :
      Moves machine machine.finish
  | fail (place : Place) (h : machine.control = .deciding place)
      (hrefuses : place.Refuses machine.depth machine.current.kind) :
      Moves machine machine.fail

theorem moves_of_readName?
    {machine next : Machine} {mayEnd : Bool} (h : machine.control = .deciding (.name mayEnd))
    (hkind : machine.current.kind = .identifier) (hread : machine.readName? = some next) :
    machine.Moves (next.seek .behindName) := by
  unfold readName? at hread
  cases hstack : machine.stack with
  | nil =>
      obtain rfl : { machine with stack := [machine.current.text] } = next := by
        simpa [hstack] using hread
      exact .alone mayEnd h hkind hstack
  | cons base stack =>
      by_cases hinside : 0 < machine.depth ∧ machine.previous ≠ .forwardSlash
      · simp only [hstack, List.isEmpty_cons, Bool.false_eq_true, if_false, if_pos hinside,
          List.head?_cons, Option.map_some, Option.some.injEq] at hread
        subst hread
        exact .begin mayEnd base stack h hkind hstack hinside
      · simp only [hstack, List.isEmpty_cons, Bool.false_eq_true, if_false, if_neg hinside,
          List.head?_cons, List.tail_cons, Option.map_some, Option.some.injEq] at hread
        subst hread
        exact .extend mayEnd base stack h hkind hstack hinside

theorem moves_of_decideName?
    {machine next : Machine} {mayEnd : Bool} (h : machine.control = .deciding (.name mayEnd))
    (hmove : machine.decideName? mayEnd = some next) :
    machine.Moves next := by
  have hfail (hkind : machine.current.kind ≠ .identifier)
      (hend : ¬(machine.current.kind = .endOfInput ∧ mayEnd = true ∧ machine.depth = 0)) :
      machine.Moves machine.fail :=
    .fail (.name mayEnd) h ⟨hkind, hend⟩
  unfold decideName? at hmove
  cases hkind : machine.current.kind with
  | endOfInput =>
      simp only [hkind] at hmove
      split at hmove
      next hend =>
        cases hmove
        obtain ⟨rfl, hdepth⟩ := hend
        exact .finishEmpty h hkind hdepth
      next hend =>
        cases hmove
        exact hfail (by simp [hkind]) (fun hall => hend hall.2)
  | identifier =>
      simp only [hkind, Option.map_eq_some_iff] at hmove
      obtain ⟨named, hread, rfl⟩ := hmove
      exact moves_of_readName? h hkind hread
  | forwardSlash | leftParen | rightParen | comma | whitespace =>
      simp only [hkind, Option.some.injEq] at hmove
      subst hmove
      exact hfail (by simp [hkind]) (by simp [hkind])

theorem moves_of_decideBehindName?
    {machine next : Machine} (h : machine.control = .deciding .behindName)
    (hmove : machine.decideBehindName? = some next) :
    machine.Moves next := by
  unfold decideBehindName? at hmove
  cases hkind : machine.current.kind with
  | forwardSlash =>
      simp only [hkind, Option.some.injEq] at hmove
      exact hmove ▸ .slash h hkind
  | leftParen =>
      simp only [hkind, Option.some.injEq] at hmove
      exact hmove ▸ .group h hkind
  | rightParen =>
      simp only [hkind, Option.some.injEq] at hmove
      exact hmove ▸ .turn .behindName h (Or.inl rfl) hkind
  | comma =>
      simp only [hkind, Option.map_eq_some_iff] at hmove
      obtain ⟨rest, htake, rfl⟩ := hmove
      exact .comma .behindName rest h (Or.inl rfl) hkind htake
  | endOfInput =>
      simp only [hkind] at hmove
      split at hmove
      next hdepth =>
        obtain ⟨rest, htake, rfl⟩ := Option.map_eq_some_iff.mp hmove
        exact .finishName rest h hkind hdepth htake
      next hdepth =>
        cases hmove
        exact .fail .behindName h (Or.inr (Or.inr ⟨hkind, hdepth⟩))
  | identifier | whitespace =>
      simp only [hkind, Option.some.injEq] at hmove
      subst hmove
      exact .fail .behindName h (by simp [Place.Refuses, hkind])

theorem moves_of_decideClosing?
    {machine next : Machine} (h : machine.control = .deciding .closing)
    (hmove : machine.decideClosing? = some next) :
    machine.Moves next := by
  obtain ⟨rest, htake, hrest⟩ := Option.bind_eq_some_iff.mp hmove
  have hdepth : rest.depth = machine.depth := by
    obtain ⟨path, stack, -, rfl⟩ := take?_eq_some_iff.mp htake
    rfl
  split at hrest
  next houtside =>
    cases hrest
    exact .closeOutside rest h htake (hdepth ▸ houtside)
  next hinside =>
    obtain ⟨left, hleave, rfl⟩ := Option.map_eq_some_iff.mp hrest
    unfold leave? at hleave
    split at hleave
    next => cases hleave
    next depth hsucc =>
      cases hleave
      exact .close rest depth h htake (hdepth ▸ hsucc)

theorem moves_of_decideBehindClosing?
    {machine next : Machine} (h : machine.control = .deciding .behindClosing)
    (hmove : machine.decideBehindClosing? = some next) :
    machine.Moves next := by
  unfold decideBehindClosing? at hmove
  cases hkind : machine.current.kind with
  | rightParen =>
      simp only [hkind, Option.some.injEq] at hmove
      exact hmove ▸ .turn .behindClosing h (Or.inr rfl) hkind
  | comma =>
      simp only [hkind, Option.map_eq_some_iff] at hmove
      obtain ⟨rest, htake, rfl⟩ := hmove
      exact .comma .behindClosing rest h (Or.inr rfl) hkind htake
  | endOfInput =>
      simp only [hkind] at hmove
      split at hmove
      next hdepth =>
        cases hmove
        exact .finishClosing h hkind hdepth
      next hdepth =>
        cases hmove
        exact .fail .behindClosing h (by simp [Place.Refuses, hkind, hdepth])
  | identifier | forwardSlash | leftParen | whitespace =>
      simp only [hkind, Option.some.injEq] at hmove
      subst hmove
      exact .fail .behindClosing h (by simp [Place.Refuses, hkind])

theorem moves_of_move?
    {machine next : Machine} (hmove : machine.move? = some next) :
    machine.Moves next := by
  unfold move? at hmove
  cases h : machine.control with
  | seeking place =>
      simp only [h, Option.some.injEq] at hmove
      unfold pull at hmove
      simp only at hmove
      split at hmove
      next hblank => exact hmove ▸ .blank place h hblank
      next hfound => exact hmove ▸ .find place h hfound
  | deciding place =>
      cases place with
      | name mayEnd => exact moves_of_decideName? h (by simpa only [h] using hmove)
      | behindName => exact moves_of_decideBehindName? h (by simpa only [h] using hmove)
      | closing => exact moves_of_decideClosing? h (by simpa only [h] using hmove)
      | behindClosing => exact moves_of_decideBehindClosing? h (by simpa only [h] using hmove)
  | finished | failed => simp [h] at hmove

/-- Whether the next move takes a path from the stack. -/
def TakesPath (machine : Machine) : Prop :=
  machine.control = .deciding .closing ∨
  (∃ place : Place, place.IsBehind ∧ machine.control = .deciding place) ∧
    machine.current.kind = .comma ∨
  machine.control = .deciding .behindName ∧ machine.current.kind = .endOfInput ∧ machine.depth = 0

theorem readName?_ne_none
    (machine : Machine) :
    machine.readName? ≠ none := by
  unfold readName?
  cases machine.stack with
  | nil => simp
  | cons base stack =>
      by_cases hinside : 0 < machine.depth ∧ machine.previous ≠ .forwardSlash <;> simp [hinside]

theorem leave?_eq_none_iff
    (machine : Machine) :
    machine.leave? = none ↔ machine.depth = 0 := by
  unfold leave?
  cases machine.depth <;> simp

theorem decideClosing?_eq_none_iff
    (machine : Machine) :
    machine.decideClosing? = none ↔ machine.stack = [] := by
  unfold decideClosing?
  rw [Option.bind_eq_none_iff]
  constructor
  · intro h
    by_contra hstack
    obtain ⟨rest, htake⟩ := Option.ne_none_iff_exists'.mp
      (mt (machine.take?_eq_none_iff (machine.previous == .identifier)).mp hstack)
    have hnone := h rest htake
    split at hnone
    next => cases hnone
    next hinside =>
      rw [Option.map_eq_none_iff, leave?_eq_none_iff] at hnone
      exact hinside hnone
  · intro hstack rest htake
    rw [(machine.take?_eq_none_iff _).mpr hstack] at htake
    cases htake

theorem decideName?_ne_none
    (machine : Machine) (mayEnd : Bool) :
    machine.decideName? mayEnd ≠ none := by
  unfold decideName?
  split
  · split <;> simp
  · simpa using machine.readName?_ne_none
  · simp

theorem decideBehindName?_eq_none_iff
    (machine : Machine) :
    machine.decideBehindName? = none ↔
      (machine.current.kind = .comma ∨
        machine.current.kind = .endOfInput ∧ machine.depth = 0) ∧ machine.stack = [] := by
  unfold decideBehindName?
  cases hkind : machine.current.kind with
  | comma => simp [take?_eq_none_iff]
  | endOfInput => by_cases hdepth : machine.depth = 0 <;> simp [hdepth, take?_eq_none_iff]
  | identifier | forwardSlash | leftParen | rightParen | whitespace => simp

theorem decideBehindClosing?_eq_none_iff
    (machine : Machine) :
    machine.decideBehindClosing? = none ↔
      machine.current.kind = .comma ∧ machine.stack = [] := by
  unfold decideBehindClosing?
  cases hkind : machine.current.kind with
  | comma => simp [take?_eq_none_iff]
  | endOfInput => by_cases hdepth : machine.depth = 0 <;> simp [hdepth]
  | identifier | forwardSlash | leftParen | rightParen | whitespace => simp

/-- A machine that has not halted can move, unless it has to take a path that is not there. -/
theorem move?_eq_none_iff
    (machine : Machine) :
    machine.move? = none ↔
      machine.control = .finished ∨ machine.control = .failed ∨
        machine.TakesPath ∧ machine.stack = [] := by
  unfold move?
  cases h : machine.control with
  | seeking place => simp [TakesPath, h]
  | finished | failed => simp
  | deciding place =>
      cases place with
      | name mayEnd =>
          simp [TakesPath, Place.IsBehind, h, machine.decideName?_ne_none mayEnd]
      | behindName => simp [TakesPath, Place.IsBehind, h, decideBehindName?_eq_none_iff]
      | closing => simp [TakesPath, h, decideClosing?_eq_none_iff]
      | behindClosing => simp [TakesPath, Place.IsBehind, h, decideBehindClosing?_eq_none_iff]

/-! ## Asking for a token and deciding -/

theorem pull_of_blank
    {machine : Machine} (h : machine.lexer.pull.1.kind = .whitespace) (place : Place) :
    machine.pull place = { machine with
      lexer := machine.lexer.pull.2
      pulled := machine.pulled ++ [machine.lexer.pull.1] } :=
  if_pos h

theorem pull_of_found
    {machine : Machine} (h : machine.lexer.pull.1.kind ≠ .whitespace) (place : Place) :
    machine.pull place = { machine with
      control := .deciding place
      current := machine.lexer.pull.1
      previous := machine.current.kind
      lexer := machine.lexer.pull.2
      pulled := machine.pulled ++ [machine.lexer.pull.1] } :=
  if_neg h

theorem pulled_pull
    (machine : Machine) (place : Place) :
    (machine.pull place).pulled = machine.pulled ++ [machine.lexer.pull.1] := by
  by_cases h : machine.lexer.pull.1.kind = .whitespace
  · rw [pull_of_blank h]
  · rw [pull_of_found h]

/-- A machine that moves asks for a token or decides about one. -/
theorem Moves.seeking_or_deciding
    {machine next : Machine} (hmoves : machine.Moves next) :
    (∃ place, machine.control = .seeking place ∧ next = machine.pull place) ∨
      ∃ place, machine.control = .deciding place := by
  cases hmoves with
  | blank place h hblank => exact Or.inl ⟨place, h, (pull_of_blank hblank place).symm⟩
  | find place h hfound => exact Or.inl ⟨place, h, (pull_of_found hfound place).symm⟩
  | alone _ h | begin _ _ _ h | extend _ _ _ h | slash h | group h | turn _ h => exact Or.inr ⟨_, h⟩
  | comma _ _ h | close _ _ h | closeOutside _ h | fail _ h => exact Or.inr ⟨_, h⟩
  | finishEmpty h | finishName _ h | finishClosing h => exact Or.inr ⟨_, h⟩

/-- What a decision leaves as it is. -/
structure SameText (machine next : Machine) : Prop where
  current : next.current = machine.current
  lexer : next.lexer = machine.lexer
  pulled : next.pulled = machine.pulled

theorem sameText_of_take?
    {machine next : Machine} {asField : Bool} (htake : machine.take? asField = some next) :
    SameText machine next := by
  obtain ⟨path, stack, -, rfl⟩ := take?_eq_some_iff.mp htake
  exact ⟨rfl, rfl, rfl⟩

/-- Deciding asks for no token. -/
theorem Moves.sameText
    {machine next : Machine} (hmoves : machine.Moves next) {place : Place}
    (hcontrol : machine.control = .deciding place) :
    SameText machine next := by
  cases hmoves with
  | blank other h => cases h.symm.trans hcontrol
  | find other h => cases h.symm.trans hcontrol
  | comma _ _ _ _ _ htake | close _ _ _ htake | closeOutside _ _ htake | finishName _ _ _ _ htake =>
      have hsame := sameText_of_take? htake
      exact ⟨hsame.current, hsame.lexer, hsame.pulled⟩
  | alone | begin | extend | slash | group | turn | finishEmpty | finishClosing | fail =>
      exact ⟨rfl, rfl, rfl⟩

/-! ## Runs -/

/-- What holds at the start and is kept by every move holds along the whole run. -/
theorem after_induction
    {first last : Machine} {count : Nat} {motive : Nat → Machine → Prop} (zero : motive 0 first)
    (succ : ∀ count machine next, motive count machine → machine.Moves next →
      motive (count + 1) next)
    (h : first.after count = some last) :
    motive count last := by
  induction count generalizing last with
  | zero =>
      obtain rfl : first = last := by simpa [after] using h
      exact zero
  | succ count ih =>
      obtain ⟨machine, hafter, hmove⟩ := Option.bind_eq_some_iff.mp h
      exact succ count machine last (ih hafter) (moves_of_move? hmove)

/-- A run that cannot be longer than a bound comes to a machine that makes no further move. -/
theorem exists_last
    {first : Machine} {bound : Nat}
    (hbound : ∀ count machine, first.after count = some machine → count ≤ bound) :
    ∃ count last, first.after count = some last ∧ last.move? = none := by
  by_contra hnone
  -- with no last machine the run could be made as long as one likes
  have hforever (count : Nat) : ∃ machine, first.after count = some machine := by
    induction count with
    | zero => exact ⟨first, rfl⟩
    | succ count ih =>
        obtain ⟨machine, hafter⟩ := ih
        cases hmove : machine.move? with
        | none => exact absurd ⟨count, machine, hafter, hmove⟩ hnone
        | some next => exact ⟨next, by rw [after, hafter, Option.bind_some, hmove]⟩
  obtain ⟨machine, hafter⟩ := hforever (bound + 1)
  have hle := hbound (bound + 1) machine hafter
  omega

end Machine

end FieldMask.Selector
