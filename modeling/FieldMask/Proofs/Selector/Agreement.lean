import FieldMask.Proofs.Selector.Feeding
import FieldMask.Proofs.Selector.Stack

/-!
# The machine reads what the parser reads

At every moment of a run it is settled what comes of it: the tokens asked for and the fields completed so far,
and behind them those of the reading that the parser, with the same open paths and groups, makes of the rest of
the text.  This is the *outlook* of a machine.  No move of a sound machine changes it
(`Machine.Sound.outlook_of_moves`), and so a machine that halts has carried out the reading of the whole selector
(`Machine.reading?_of_after`).
-/

namespace FieldMask.Selector

/-! ## Readings behind what has been read -/

/-- A reading behind tokens that have been asked for and fields that have been completed. -/
def Reading.behind (reading : Reading) (pulled : List Token) (fields : List Field) : Reading :=
  ⟨pulled ++ reading.pulled, reading.result.map (fields ++ ·)⟩

theorem Reading.behind_nil
    (reading : Reading) :
    reading.behind [] [] = reading := by
  obtain ⟨pulled, result⟩ := reading
  cases result <;> rfl

theorem Reading.behind_behind
    (reading : Reading) (pulled more : List Token) (fields others : List Field) :
    (reading.behind more others).behind pulled fields =
      reading.behind (pulled ++ more) (fields ++ others) := by
  obtain ⟨inner, result⟩ := reading
  cases result <;> simp [behind, Except.map]

namespace Parser

/-- What comes of a token that has been asked for already and of the text behind it. -/
def resume (parser : Parser) (token : Token) (lexer : Lexer) : Reading :=
  match parser.step token with
  | .more next completed => (next.run lexer).behind [] completed.toList
  | .finished completed => ⟨[], .ok completed.toList⟩
  | .unexpected => ⟨[], .error ⟨token⟩⟩

theorem run_eq_resume
    (parser : Parser) (lexer : Lexer) :
    parser.run lexer = (parser.resume lexer.pull.1 lexer.pull.2).behind [lexer.pull.1] [] := by
  rw [run, resume]
  split
  next next completed hstep =>
    rw [hstep, Reading.behind_behind]
    rfl
  next completed hstep => rw [hstep]; rfl
  next hstep => rw [hstep]; rfl

/-- A blank is passed over. -/
theorem run_of_blank
    (parser : Parser) {lexer : Lexer} (hblank : lexer.pull.1.kind = .whitespace) :
    parser.run lexer = (parser.run lexer.pull.2).behind [lexer.pull.1] [] := by
  rw [run_eq_resume parser lexer, resume, parser.step_whitespace hblank]
  dsimp only
  rw [Option.toList_none, Reading.behind_nil]

theorem resume_of_moves
    {parser next : Parser} {token : Token} {kind : Kind} {completed : Option Field}
    (hmoves : parser.Moves (kind, token.text) next completed) (hkind : token.kind = kind)
    (lexer : Lexer) :
    parser.resume token lexer = (next.run lexer).behind [] completed.toList := by
  have hstep : parser.step token = .more next completed := by
    rw [← step_token_lexeme, Token.lexeme, hkind]
    exact step_of_moves hmoves
  rw [resume, hstep]

theorem resume_of_unexpected
    {parser : Parser} {token : Token} (h : parser.step token = .unexpected) (lexer : Lexer) :
    parser.resume token lexer = ⟨[], .error ⟨token⟩⟩ := by
  rw [resume, h]

theorem resume_of_complete
    {parser : Parser} {token : Token} (h : parser.Complete) (hkind : token.kind = .endOfInput)
    (lexer : Lexer) :
    parser.resume token lexer = ⟨[], .ok parser.pending.toList⟩ := by
  rw [resume, (parser.step_endOfInput hkind).1 h]

end Parser

/-! ## The outlook of a machine -/

/-- The stage of a parser at a place behind a token of this kind. -/
def Place.stage (place : Place) (last : Kind) : Stage :=
  match place with
  | .name true => .start
  | .name false => if last = .forwardSlash then .slash else .opening
  | .behindName => .name
  | .closing => if last = .identifier then .name else .closing
  | .behindClosing => .closing

namespace Machine

/-- The parser with the paths and groups of a machine, at a place behind a token of this kind. -/
def parser (machine : Machine) (place : Place) (last : Kind) : Parser :=
  ⟨place.stage last, machine.stack, machine.depth⟩

/-- The reading that a machine is about to carry out. -/
def outlook (machine : Machine) : Reading :=
  match machine.control with
  | .seeking place =>
    ((machine.parser place machine.current.kind).run machine.lexer).behind machine.pulled
      machine.fields
  | .deciding place =>
    ((machine.parser place machine.previous).resume machine.current machine.lexer).behind
      machine.pulled machine.fields
  | .finished => ⟨machine.pulled, .ok machine.fields⟩
  | .failed => ⟨machine.pulled, .error ⟨machine.current⟩⟩

theorem outlook_start
    (source : String) :
    (start source).outlook = read source :=
  Reading.behind_nil _

theorem reading?_eq_outlook
    {machine : Machine} (h : machine.control = .finished ∨ machine.control = .failed) :
    machine.reading? = some machine.outlook := by
  rcases h with h | h <;> simp only [reading?, outlook, h]

/-! ## No move changes the outlook -/

variable {machine next : Machine}

/-- A machine goes on as its parser does when the parser accepts the token. -/
theorem outlook_of_accepted
    {place later : Place} {kind : Kind} {accepted : Parser} {completed : Option Field}
    (hcontrol : machine.control = .deciding place) (hkind : machine.current.kind = kind)
    (hmoves : (machine.parser place machine.previous).Moves (kind, machine.current.text) accepted
      completed)
    (hnext : next.control = .seeking later) (hparser : next.parser later kind = accepted)
    (hsame : SameText machine next) (hfields : next.fields = machine.fields ++ completed.toList) :
    next.outlook = machine.outlook := by
  simp only [outlook, hcontrol, hnext]
  rw [Parser.resume_of_moves hmoves hkind, Reading.behind_behind, hsame.current, hsame.lexer,
    hsame.pulled, hfields, hkind, hparser, List.append_nil]

/-- A machine stops as its parser does when the selector may end. -/
theorem outlook_of_complete
    {place : Place} (hcontrol : machine.control = .deciding place)
    (hkind : machine.current.kind = .endOfInput)
    (hcomplete : (machine.parser place machine.previous).Complete)
    (hnext : next.control = .finished) (hsame : SameText machine next)
    (hfields : next.fields =
      machine.fields ++ (machine.parser place machine.previous).pending.toList) :
    next.outlook = machine.outlook := by
  simp only [outlook, hcontrol, hnext]
  rw [Parser.resume_of_complete hcomplete hkind, hsame.pulled, hfields]
  simp [Reading.behind, Except.map]

/-- A machine stops as its parser does when the parser does not accept the token. -/
theorem outlook_of_unexpected
    {place : Place} (hcontrol : machine.control = .deciding place)
    (hstep : (machine.parser place machine.previous).step machine.current = .unexpected)
    (hnext : next.control = .failed) (hsame : SameText machine next) :
    next.outlook = machine.outlook := by
  simp only [outlook, hcontrol, hnext]
  rw [Parser.resume_of_unexpected hstep, hsame.pulled, hsame.current]
  simp [Reading.behind, Except.map]

/-- The innermost path is a field exactly where the parser has one pending. -/
theorem fields_take?
    {asField : Bool} (htake : machine.take? asField = some next) (place : Place) (last : Kind)
    (hfield : asField = true ↔ place.stage last = .name) :
    next.depth = machine.depth ∧ next.stack = machine.stack.tail ∧
      next.fields = machine.fields ++ (machine.parser place last).pending.toList := by
  obtain ⟨path, stack, hstack, rfl⟩ := take?_eq_some_iff.mp htake
  refine ⟨rfl, by rw [hstack]; rfl, ?_⟩
  by_cases hstage : place.stage last = .name
  · simp [hfield.mpr hstage, Parser.pending, parser, hstage, Parser.innermost?, hstack]
  · have hnone : ¬asField = true := fun h => hstage (hfield.mp h)
    simp [hnone, Parser.pending, parser, hstage]

/-- What a place refuses, the parser does not accept there. -/
theorem step_of_refuses
    {place : Place} {last : Kind} (hrefuses : place.Refuses machine.depth machine.current.kind)
    (hblank : machine.current.kind ≠ .whitespace)
    (hstart : place = .name true → machine.depth = 0) :
    (machine.parser place last).step machine.current = .unexpected := by
  cases place with
  | name mayEnd =>
      cases mayEnd <;> by_cases hslash : last = .forwardSlash <;>
        cases hkind : machine.current.kind <;>
          simp_all [Parser.step, parser, Place.stage, Place.Refuses]
  | behindName =>
      cases hkind : machine.current.kind <;>
        simp_all [Parser.step, parser, Place.stage, Place.Refuses]
  | closing => exact absurd hrefuses (by simp [Place.Refuses])
  | behindClosing =>
      cases hkind : machine.current.kind <;>
        simp_all [Parser.step, parser, Place.stage, Place.Refuses]

/-- Behind anything but a slash a name begins a path. -/
theorem parser_begins
    {last : Kind} (hlast : last ≠ .forwardSlash) (mayEnd : Bool) :
    (machine.parser (.name mayEnd) last).Begins := by
  cases mayEnd with
  | false => exact Or.inr (if_neg hlast)
  | true => exact Or.inl rfl

theorem parser_ends
    {place : Place} (hplace : place.IsBehind) (last : Kind) :
    (machine.parser place last).Ends := by
  rcases hplace with rfl | rfl
  · exact Or.inl rfl
  · exact Or.inr rfl

theorem parser_ends_closing
    (last : Kind) :
    (machine.parser .closing last).Ends := by
  by_cases hlast : last = .identifier
  · exact Or.inl (if_pos hlast)
  · exact Or.inr (if_neg hlast)

namespace Sound

/-- No move of a sound machine changes what comes of it. -/
theorem outlook_of_moves
    (h : machine.Sound) (hmoves : machine.Moves next) :
    next.outlook = machine.outlook := by
  have hsame {place : Place} (hcontrol : machine.control = .deciding place) :
      SameText machine next :=
    hmoves.sameText hcontrol
  cases hmoves with
  | blank place hcontrol hblank =>
      simp only [outlook, hcontrol]
      rw [Parser.run_of_blank _ hblank, Reading.behind_behind, List.append_nil]
      rfl
  | find place hcontrol hfound =>
      simp only [outlook, hcontrol]
      rw [Parser.run_eq_resume, Reading.behind_behind, List.append_nil]
      rfl
  | alone mayEnd hcontrol hkind hstack =>
      have hslash := h.previous_ne_slash hcontrol hstack
      refine outlook_of_accepted hcontrol hkind
        (.begin machine.current.text (machine.parser_begins hslash mayEnd)) rfl ?_ (hsame hcontrol)
        (List.append_nil _).symm
      simp [Parser.begin, Parser.lengthened, parser, seek, Place.stage, hstack]
  | begin mayEnd base stack hcontrol hkind hstack hinside =>
      have hbase : base ≠ Path.root := (hstack ▸ h.nested).ne_root
      refine outlook_of_accepted hcontrol hkind
        (.begin machine.current.text (machine.parser_begins hinside.2 mayEnd)) rfl ?_ (hsame hcontrol)
        (List.append_nil _).symm
      simp [Parser.begin, Parser.lengthened, parser, seek, Place.stage, hstack,
        Path.child_of_ne_root _ hbase]
  | extend mayEnd base stack hcontrol hkind hstack houtside =>
      have hbase : base ≠ Path.root := (hstack ▸ h.nested).ne_root
      have hslash := h.previous_eq_slash hcontrol (by simp [hstack]) houtside
      have hstage : (machine.parser (.name mayEnd) machine.previous).stage = .slash := by
        cases mayEnd with
        | false => exact if_pos hslash
        | true => cases hslash.symm.trans (h.deciding _ hcontrol).1.follows
      refine outlook_of_accepted hcontrol hkind (.extend machine.current.text hstage) rfl ?_
        (hsame hcontrol) (List.append_nil _).symm
      simp [Parser.extend, Parser.lengthened, parser, seek, Place.stage, hstack,
        Path.child_of_ne_root _ hbase]
  | slash hcontrol hkind =>
      exact outlook_of_accepted hcontrol hkind (.slash machine.current.text rfl) rfl rfl
        (hsame hcontrol) (List.append_nil _).symm
  | group hcontrol hkind =>
      exact outlook_of_accepted hcontrol hkind (.group machine.current.text rfl) rfl rfl
        (hsame hcontrol) (List.append_nil _).symm
  | turn place hcontrol hplace hkind =>
      -- the parser has no place of its own in front of a closing parenthesis
      have hstage : Place.closing.stage machine.previous = place.stage machine.previous := by
        have hfollows := (h.deciding place hcontrol).1.follows
        rcases hplace with rfl | rfl
        · exact if_pos hfollows
        · exact if_neg (by simp [show machine.previous = .rightParen from hfollows])
      simp only [outlook, hcontrol, parser, hstage]
  | comma place rest hcontrol hplace hkind htake =>
      have hfield : (place == .behindName) = true ↔ place.stage machine.previous = .name := by
        rcases hplace with hplace | hplace <;> simp [hplace, Place.stage]
      obtain ⟨hdepth, hstack, hfields⟩ :=
        fields_take? htake place machine.previous hfield
      refine outlook_of_accepted hcontrol hkind
        (.comma machine.current.text (machine.parser_ends hplace machine.previous)) rfl ?_
        (hsame hcontrol) hfields
      simp [Parser.dropPath, parser, seek, hdepth, hstack, Place.stage]
  | close rest depth hcontrol htake hinside =>
      have hkind := (h.deciding .closing hcontrol).2 rfl
      obtain ⟨hdepth, hstack, hfields⟩ :=
        fields_take? htake .closing machine.previous (by simp [Place.stage])
      refine outlook_of_accepted hcontrol hkind
        (.close machine.current.text depth (machine.parser_ends_closing machine.previous) hinside) rfl
        ?_ (hsame hcontrol) hfields
      simp [Parser.dropPath, parser, seek, hstack, Place.stage]
  | closeOutside rest hcontrol htake houtside =>
      have hkind := (h.deciding .closing hcontrol).2 rfl
      refine outlook_of_unexpected hcontrol ?_ rfl (hsame hcontrol)
      by_cases hname : machine.previous = .identifier <;>
        simp [Parser.step, Parser.close, parser, Place.stage, hkind, hname, houtside]
  | finishEmpty hcontrol hkind hdepth =>
      exact outlook_of_complete hcontrol hkind (Or.inl rfl) rfl (hsame hcontrol)
        (List.append_nil _).symm
  | finishName rest hcontrol hkind hdepth htake =>
      obtain ⟨-, -, hfields⟩ :=
        fields_take? htake .behindName machine.previous (by simp [Place.stage])
      exact outlook_of_complete hcontrol hkind (Or.inr ⟨Or.inl rfl, hdepth⟩) rfl
        (hsame hcontrol) hfields
  | finishClosing hcontrol hkind hdepth =>
      exact outlook_of_complete hcontrol hkind (Or.inr ⟨Or.inr rfl, hdepth⟩) rfl (hsame hcontrol)
        (List.append_nil _).symm
  | fail place hcontrol hrefuses =>
      have hstart := (h.deciding place hcontrol).1.depth_of_start
      exact outlook_of_unexpected hcontrol
        (step_of_refuses hrefuses h.current_ne_whitespace hstart) rfl (hsame hcontrol)

end Sound

/-- A machine that halts has carried out the reading of the whole selector. -/
theorem reading?_of_after
    {source : String} {count : Nat} (h : (start source).after count = some machine)
    (hhalted : machine.control = .finished ∨ machine.control = .failed) :
    machine.reading? = some (read source) := by
  have houtlook : machine.outlook = read source :=
    (Sound.eq_of_after (fun _ _ h hmoves => h.outlook_of_moves hmoves) h).trans (outlook_start source)
  rw [reading?_eq_outlook hhalted, houtlook]

end Machine

end FieldMask.Selector
