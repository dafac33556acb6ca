import FieldMask.Proofs.Paths
import FieldMask.Proofs.Selector.Branches
import FieldMask.Proofs.Selector.Feeding
import Mathlib.Data.List.Induction

/-!
# The parser follows the grammar

What the parser has accepted at any moment is the beginning of a selector of the grammar.  Its open paths
are the groups that are still open: each is a *frame*, which holds the finished branches in front of the
group and the path that the group continues.  `Parser.Derives` says so for every stage, and a move of the
parser keeps it.  So where a selector may end, the lexemes are those of a selection of the grammar, and
the fields are the ends of its branches (`Parser.Traces.exists_selection`).

Conversely the parser accepts the lexemes of every branch and comes out at the depth at which it went in
(`Parser.acceptsBelow`).
-/

namespace FieldMask

/-- The field that is reached through these names. -/
def Field.ofNames (names : List String) : Field :=
  Field.ofString (Path.ofNames names)

namespace Selector

/-! ## Frames -/

/-- An open group: the branches in front of the path that it continues, and that path. -/
structure Frame where
  done : List Branch
  first : String
  more : List String

/-- The names around the innermost group, from the outside in. -/
def above : List Frame → List String
  | [] => []
  | frame :: frames => above frames ++ frame.first :: frame.more

/-- The paths of the open groups, innermost first. -/
def openTexts : List Frame → List String
  | [] => []
  | frame :: frames => Path.ofNames (above (frame :: frames)) :: openTexts frames

/-- The lexemes up to the innermost opening parenthesis. -/
def opened : List Frame → List Lexeme
  | [] => []
  | frame :: frames =>
    opened frames ++ begun frame.done ++ pathLexemes frame.first frame.more ++ [(.leftParen, "(")]

/-- The ends of the branches that are finished outside the innermost group. -/
def finished : List Frame → List (List String)
  | [] => []
  | frame :: frames => finished frames ++ endsAll (above frames) frame.done

theorem headD_openTexts
    (frames : List Frame) :
    (openTexts frames).headD Path.root = Path.ofNames (above frames) := by
  cases frames <;> rfl

namespace Parser

/-- A branch comes next. -/
def InFront (parser : Parser) (lexemes : List Lexeme) (ends : List (List String)) : Prop :=
  ∃ frames done, parser.openPaths = openTexts frames ∧ parser.depth = frames.length ∧
    lexemes = opened frames ++ begun done ∧ ends = finished frames ++ endsAll (above frames) done

/-- A name comes next that continues the path of a branch. -/
def Within (parser : Parser) (lexemes : List Lexeme) (ends : List (List String)) : Prop :=
  ∃ frames done first more,
    parser.openPaths = Path.ofNames (above frames ++ first :: more) :: openTexts frames ∧
    parser.depth = frames.length ∧
    lexemes = opened frames ++ begun done ++ pathLexemes first more ++ [(.forwardSlash, "/")] ∧
    ends = finished frames ++ endsAll (above frames) done

/-- A branch with this group has just been read; it may be the last one, and have no group so far. -/
def Behind (parser : Parser) (lexemes : List Lexeme) (ends : List (List String))
    (group : List Branch) : Prop :=
  ∃ frames done first more,
    parser.openPaths = Path.ofNames (above frames ++ first :: more) :: openTexts frames ∧
    parser.depth = frames.length ∧
    lexemes = opened frames ++ begun done ++ (Branch.mk first more group).lexemes ∧
    ends = finished frames ++ endsAll (above frames) (done ++ [.mk first more group])

/-- The lexemes are the beginning of a selection, in which the parser is where it should be, and these
are the ends of branches in it so far. -/
def Derives (parser : Parser) (lexemes : List Lexeme) (ends : List (List String)) : Prop :=
  match parser.stage with
  | .start => parser = initial ∧ lexemes = [] ∧ ends = []
  | .opening => parser.InFront lexemes ends
  | .slash => parser.Within lexemes ends
  | .name => parser.Behind lexemes ends []
  | .closing => ∃ group, group ≠ [] ∧ parser.Behind lexemes ends group

/-- The parser has accepted the lexemes, with these fields completed. -/
def Traces (parser : Parser) (lexemes : List Lexeme) (fields : List Field) : Prop :=
  ∃ ends, parser.Derives lexemes ends ∧
    fields ++ parser.pending.toList = ends.map Field.ofNames

theorem traces_initial : initial.Traces [] [] :=
  ⟨[], ⟨rfl, rfl, rfl⟩, rfl⟩

/-! ## Every move follows the grammar -/

theorem pending_of_stage_ne_name
    {parser : Parser} (h : parser.stage ≠ .name) :
    parser.pending = none :=
  if_neg h

theorem append_pending_of_stage_ne_name
    {parser : Parser} (h : parser.stage ≠ .name) (fields : List Field) :
    fields ++ parser.pending.toList = fields := by
  rw [pending_of_stage_ne_name h, Option.toList_none, List.append_nil]

theorem pending_of_stage_name
    {parser : Parser} (h : parser.stage = .name) :
    parser.pending = parser.openPaths.head?.map Field.ofString :=
  if_pos h

theorem Derives.inFront
    {parser : Parser} {lexemes : List Lexeme} {ends : List (List String)}
    (h : parser.Derives lexemes ends) (hbegins : parser.Begins) :
    parser.InFront lexemes ends := by
  rcases hbegins with hstage | hstage
  · simp only [Derives, hstage] at h
    obtain ⟨rfl, rfl, rfl⟩ := h
    exact ⟨[], [], rfl, rfl, rfl, rfl⟩
  · simpa only [Derives, hstage] using h

theorem Derives.behind
    {parser : Parser} {lexemes : List Lexeme} {ends : List (List String)}
    (h : parser.Derives lexemes ends) (hends : parser.Ends) :
    ∃ group, parser.Behind lexemes ends group := by
  rcases hends with hstage | hstage
  · simp only [Derives, hstage] at h
    exact ⟨[], h⟩
  · simp only [Derives, hstage] at h
    obtain ⟨group, -, h⟩ := h
    exact ⟨group, h⟩

/-- Behind a name the last end is the pending field; without it the completed fields are those of the
finished branches. -/
theorem Behind.fields_eq
    {parser : Parser} {lexemes : List Lexeme} {ends : List (List String)} {fields : List Field}
    (hstage : parser.stage = .name) (h : parser.Behind lexemes ends [])
    (hfields : fields ++ parser.pending.toList = ends.map Field.ofNames) :
    ∃ frames done first more,
      parser.openPaths = Path.ofNames (above frames ++ first :: more) :: openTexts frames ∧
      parser.depth = frames.length ∧
      lexemes = opened frames ++ begun done ++ pathLexemes first more ∧
      fields = (finished frames ++ endsAll (above frames) done).map Field.ofNames := by
  obtain ⟨frames, done, first, more, hopen, hdepth, hlexemes, hends⟩ := h
  refine ⟨frames, done, first, more, hopen, hdepth, hlexemes, ?_⟩
  have hpending : parser.pending.toList =
      [Field.ofNames (above frames ++ first :: more)] := by
    rw [pending_of_stage_name hstage, hopen]
    rfl
  rw [hpending, hends, endsAll_append, ← List.append_assoc, List.map_append] at hfields
  exact List.append_inj_left' hfields rfl

theorem traces_of_name
    {parser : Parser} {frames : List Frame} {first : String} {more : List String}
    (hstage : parser.stage = .name)
    (hopen : parser.openPaths = Path.ofNames (above frames ++ first :: more) :: openTexts frames)
    (hdepth : parser.depth = frames.length) (done : List Branch) :
    parser.Traces (opened frames ++ begun done ++ pathLexemes first more)
      ((finished frames ++ endsAll (above frames) done).map Field.ofNames) := by
  refine ⟨finished frames ++ endsAll (above frames) (done ++ [.mk first more []]), ?_, ?_⟩
  · simp only [Derives, hstage]
    exact ⟨frames, done, first, more, hopen, hdepth, rfl, rfl⟩
  · rw [pending_of_stage_name hstage, hopen, endsAll_append, ← List.append_assoc, List.map_append]
    simp [endsAll, Branch.ends, Field.ofNames]

theorem traces_begin
    {parser : Parser} {lexemes : List Lexeme} {fields : List Field}
    (h : parser.Traces lexemes fields) (name : String) (hbegins : parser.Begins) :
    (parser.begin name).Traces (lexemes ++ [(.identifier, name)]) fields := by
  obtain ⟨ends, hderives, hfields⟩ := h
  obtain ⟨frames, done, hopen, hdepth, rfl, rfl⟩ := hderives.inFront hbegins
  have hstage : parser.stage ≠ .name := by
    rcases hbegins with hstage | hstage <;> simp [hstage]
  have hlengthened : parser.lengthened name = Path.ofNames (above frames ++ [name]) := by
    rw [lengthened, hopen, headD_openTexts, Path.ofNames_append_singleton]
  have hpaths : (parser.begin name).openPaths =
      Path.ofNames (above frames ++ [name]) :: openTexts frames := by
    rw [begin, hlengthened, hopen]
  rw [append_pending_of_stage_ne_name hstage] at hfields
  rw [hfields]
  exact traces_of_name rfl hpaths hdepth done

theorem traces_extend
    {parser : Parser} {lexemes : List Lexeme} {fields : List Field}
    (h : parser.Traces lexemes fields) (name : String) (hstage : parser.stage = .slash) :
    (parser.extend name).Traces (lexemes ++ [(.identifier, name)]) fields := by
  obtain ⟨ends, hderives, hfields⟩ := h
  simp only [Derives, hstage] at hderives
  obtain ⟨frames, done, first, more, hopen, hdepth, rfl, rfl⟩ := hderives
  have hlengthened : parser.lengthened name =
      Path.ofNames (above frames ++ first :: (more ++ [name])) := by
    rw [lengthened, hopen, List.headD_cons, ← Path.ofNames_append_singleton]
    simp
  have hpaths : (parser.extend name).openPaths =
      Path.ofNames (above frames ++ first :: (more ++ [name])) :: openTexts frames := by
    rw [extend, hlengthened, hopen, List.tail_cons]
  have htraces := traces_of_name rfl hpaths hdepth done
  rw [append_pending_of_stage_ne_name (by simp [hstage])] at hfields
  rw [hfields]
  simpa [pathLexemes_append_singleton] using htraces

theorem traces_slash
    {parser : Parser} {lexemes : List Lexeme} {fields : List Field}
    (h : parser.Traces lexemes fields) (hstage : parser.stage = .name) :
    Traces { parser with stage := .slash } (lexemes ++ [(.forwardSlash, "/")]) fields := by
  obtain ⟨ends, hderives, hfields⟩ := h
  simp only [Derives, hstage] at hderives
  obtain ⟨frames, done, first, more, hopen, hdepth, rfl, hfields⟩ := hderives.fields_eq hstage hfields
  refine ⟨_, ⟨frames, done, first, more, hopen, hdepth, rfl, rfl⟩, ?_⟩
  rw [hfields, append_pending_of_stage_ne_name (by simp)]

theorem traces_group
    {parser : Parser} {lexemes : List Lexeme} {fields : List Field}
    (h : parser.Traces lexemes fields) (hstage : parser.stage = .name) :
    Traces { parser with stage := .opening, depth := parser.depth + 1 }
      (lexemes ++ [(.leftParen, "(")]) fields := by
  obtain ⟨ends, hderives, hfields⟩ := h
  simp only [Derives, hstage] at hderives
  obtain ⟨frames, done, first, more, hopen, hdepth, rfl, hfields⟩ := hderives.fields_eq hstage hfields
  refine ⟨finished (⟨done, first, more⟩ :: frames), ?_, ?_⟩
  · refine ⟨⟨done, first, more⟩ :: frames, [], hopen, ?_, ?_, ?_⟩
    · simp [hdepth]
    · simp [opened, begun]
    · simp [endsAll]
  · rw [hfields, append_pending_of_stage_ne_name (by simp), finished]

theorem traces_comma
    {parser : Parser} {lexemes : List Lexeme} {fields : List Field}
    (h : parser.Traces lexemes fields) (hends : parser.Ends) :
    (parser.dropPath .opening).Traces (lexemes ++ [(.comma, ",")])
      (fields ++ parser.pending.toList) := by
  obtain ⟨ends, hderives, hfields⟩ := h
  obtain ⟨group, frames, done, first, more, hopen, hdepth, rfl, rfl⟩ := hderives.behind hends
  refine ⟨_, ⟨frames, done ++ [.mk first more group], ?_, hdepth, ?_, rfl⟩, ?_⟩
  · simp [dropPath, hopen]
  · simp [begun]
  · rw [hfields, append_pending_of_stage_ne_name (by simp [dropPath])]

theorem traces_close
    {parser : Parser} {lexemes : List Lexeme} {fields : List Field} {depth : Nat}
    (h : parser.Traces lexemes fields) (hends : parser.Ends) (hinside : parser.depth = depth + 1) :
    Traces { parser.dropPath .closing with depth } (lexemes ++ [(.rightParen, ")")])
      (fields ++ parser.pending.toList) := by
  obtain ⟨ends, hderives, hfields⟩ := h
  obtain ⟨group, frames, done, first, more, hopen, hdepth, rfl, rfl⟩ := hderives.behind hends
  cases frames with
  | nil => simp [hinside] at hdepth
  | cons frame frames =>
      have hne : done ++ [.mk first more group] ≠ [] := by simp
      refine ⟨_, ⟨done ++ [.mk first more group], hne, frames, frame.done, frame.first, frame.more,
        ?_, ?_, ?_, rfl⟩, ?_⟩
      · simp [dropPath, hopen, openTexts, above]
      · simpa [hinside] using hdepth
      · rw [lexemes_of_group_ne_nil _ _ hne, lexemesAll_append_singleton]
        simp [opened]
      · rw [hfields, append_pending_of_stage_ne_name (by simp [dropPath]),
          endsAll_append (above frames)]
        simp [finished, endsAll, ends_of_group_ne_nil _ _ _ hne, above]

theorem traces_of_moves
    {parser next : Parser} {lexemes : List Lexeme} {lexeme : Lexeme} {fields : List Field}
    {completed : Option Field} (h : parser.Traces lexemes fields) (hwf : lexeme.WellFormed)
    (hmoves : parser.Moves lexeme next completed) :
    next.Traces (lexemes ++ [lexeme]) (fields ++ completed.toList) := by
  cases hmoves with
  | begin name hbegins => simpa using traces_begin h name hbegins
  | extend name hstage => simpa using traces_extend h name hstage
  | slash text hstage =>
      rw [hwf.text_eq_symbol rfl, Option.toList_none, List.append_nil]
      exact traces_slash h hstage
  | group text hstage =>
      rw [hwf.text_eq_symbol rfl, Option.toList_none, List.append_nil]
      exact traces_group h hstage
  | comma text hends =>
      rw [hwf.text_eq_symbol rfl]
      exact traces_comma h hends
  | close text depth hends hinside =>
      rw [hwf.text_eq_symbol rfl]
      exact traces_close h hends hinside

theorem traces_feed
    {parser last : Parser} {done lexemes : List Lexeme} {fields later : List Field}
    (h : parser.Traces done fields) (hwf : ∀ lexeme ∈ lexemes, lexeme.WellFormed)
    (hfeed : parser.feed lexemes = some (last, later)) :
    last.Traces (done ++ lexemes) (fields ++ later) := by
  induction lexemes generalizing parser done fields later with
  | nil =>
      obtain ⟨rfl, rfl⟩ : parser = last ∧ [] = later := by simpa using hfeed
      simpa using h
  | cons lexeme lexemes ih =>
      rw [List.forall_mem_cons] at hwf
      obtain ⟨next, completed, rest, hstep, hrest, rfl⟩ := feed_cons_eq_some_iff.mp hfeed
      have hnext := traces_of_moves h hwf.1 (moves_of_step hwf.1.1 hstep)
      simpa using ih hnext hwf.2 hrest

/-- Where a selector may end, a selection of the grammar has been read, or nothing. -/
theorem Traces.exists_selection
    {parser : Parser} {lexemes : List Lexeme} {fields : List Field}
    (h : parser.Traces lexemes fields) (hcomplete : parser.Complete) :
    lexemes = [] ∧ fields ++ parser.pending.toList = [] ∨
      ∃ selection : Selection, selection.lexemes = lexemes ∧
        fields ++ parser.pending.toList = selection.ends.map Field.ofNames := by
  obtain ⟨ends, hderives, hfields⟩ := h
  rcases hcomplete with hstage | ⟨hends, houtside⟩
  · simp only [Derives, hstage] at hderives
    obtain ⟨-, rfl, rfl⟩ := hderives
    exact Or.inl ⟨rfl, hfields⟩
  · obtain ⟨group, frames, done, first, more, -, hdepth, rfl, rfl⟩ := hderives.behind hends
    have hnil : frames = [] := by simpa [houtside, eq_comm] using hdepth
    subst hnil
    obtain ⟨leading, others, hbranches⟩ :=
      List.exists_cons_of_ne_nil (show done ++ [Branch.mk first more group] ≠ [] by simp)
    refine Or.inr ⟨⟨leading, others⟩, ?_, ?_⟩
    · rw [Selection.lexemes, Selection.branches, ← hbranches, lexemesAll_append_singleton]
      rfl
    · rw [hfields, Selection.ends, Selection.branches, ← hbranches]
      rfl

/-! ## Every branch is accepted -/

/-- The parser accepts the lexemes, comes out at the depth at which it went in, with `outer` beneath the
path that is open there, and the fields are completed then or pending. -/
def Accepts (parser : Parser) (lexemes : List Lexeme) (outer : List String)
    (fields : List Field) : Prop :=
  ∃ last completed, parser.feed lexemes = some (last, completed) ∧ last.Ends ∧
    last.depth = parser.depth ∧ last.openPaths.tail = outer ∧
    completed ++ last.pending.toList = fields

theorem feed_cons_of_moves
    {parser next : Parser} {lexeme : Lexeme} {completed : Option Field}
    (h : parser.Moves lexeme next completed) (lexemes : List Lexeme) :
    parser.feed (lexeme :: lexemes) =
      (next.feed lexemes).map fun (last, fields) => (last, completed.toList ++ fields) :=
  feed_cons_of_step (step_of_moves h) lexemes

theorem feed_pathLexemes
    {parser : Parser} {names : List String} (hbegins : parser.Begins)
    (habove : parser.openPaths.headD Path.root = Path.ofNames names) (first : String)
    (more : List String) :
    parser.feed (pathLexemes first more) =
      some (⟨.name, Path.ofNames (names ++ first :: more) :: parser.openPaths, parser.depth⟩, []) := by
  induction more using List.reverseRecOn with
  | nil =>
      have hlengthened : parser.lengthened first = Path.ofNames (names ++ [first]) := by
        rw [lengthened, habove, Path.ofNames_append_singleton]
      rw [pathLexemes, List.flatMap_nil, feed_cons_of_moves (.begin first hbegins), begin,
        hlengthened]
      rfl
  | append_singleton more name ih =>
      rw [pathLexemes_append_singleton, feed_append_of_eq_some ih,
        feed_cons_of_moves (.slash "/" rfl), feed_cons_of_moves (.extend name rfl), extend,
        lengthened]
      simp [← Path.ofNames_append_singleton]

/-- Whatever is in front of it, a branch below these names is accepted where it may begin. -/
def AcceptsBelow (names : List String) (branch : Branch) : Prop :=
  ∀ parser : Parser, parser.Begins →
    parser.openPaths.headD Path.root = Path.ofNames names →
    parser.Accepts branch.lexemes parser.openPaths ((branch.ends names).map Field.ofNames)

theorem accepts_others
    {names : List String} {branches : List Branch}
    (hbranches : ∀ branch ∈ branches, AcceptsBelow names branch)
    {parser : Parser} (hends : parser.Ends)
    (habove : parser.openPaths.tail.headD Path.root = Path.ofNames names) :
    parser.Accepts (lexemesAll [(.comma, ",")] branches) parser.openPaths.tail
      (parser.pending.toList ++ (endsAll names branches).map Field.ofNames) := by
  induction branches generalizing parser with
  | nil => exact ⟨parser, [], rfl, hends, rfl, rfl, by simp [endsAll]⟩
  | cons branch branches ih =>
      rw [List.forall_mem_cons] at hbranches
      obtain ⟨next, completed, hfeed, hnext, hdepth, hopen, hfields⟩ :=
        hbranches.1 (parser.dropPath .opening) (Or.inr rfl) habove
      obtain ⟨last, later, hlater, hlast, hdepth', hopen', hfields'⟩ :=
        ih hbranches.2 hnext (by rw [hopen]; exact habove)
      refine ⟨last, parser.pending.toList ++ (completed ++ later), ?_, hlast, ?_, ?_, ?_⟩
      · rw [lexemesAll, List.append_assoc, List.singleton_append,
          feed_cons_of_moves (.comma "," hends), feed_append_of_eq_some hfeed, hlater]
        rfl
      · rw [hdepth', hdepth, dropPath]
      · rw [hopen', hopen, dropPath]
      · rw [endsAll, List.map_append, ← hfields, List.append_assoc, List.append_assoc, hfields',
          List.append_assoc]

theorem accepts_all
    {names : List String} {branch : Branch} {branches : List Branch}
    (hbranches : ∀ other ∈ branch :: branches, AcceptsBelow names other)
    {parser : Parser} (hbegins : parser.Begins)
    (habove : parser.openPaths.headD Path.root = Path.ofNames names) :
    parser.Accepts (lexemesAll [] (branch :: branches)) parser.openPaths
      ((endsAll names (branch :: branches)).map Field.ofNames) := by
  rw [List.forall_mem_cons] at hbranches
  obtain ⟨next, completed, hfeed, hnext, hdepth, hopen, hfields⟩ :=
    hbranches.1 parser hbegins habove
  obtain ⟨last, later, hlater, hlast, hdepth', hopen', hfields'⟩ :=
    accepts_others hbranches.2 hnext (by rw [hopen]; exact habove)
  refine ⟨last, completed ++ later, ?_, hlast, ?_, ?_, ?_⟩
  · rw [lexemesAll, List.nil_append, feed_append_of_eq_some hfeed, hlater]
    rfl
  · rw [hdepth', hdepth]
  · rw [hopen', hopen]
  · rw [endsAll, List.map_append, ← hfields, List.append_assoc, hfields', List.append_assoc]

theorem acceptsBelow
    (names : List String) (branch : Branch) :
    AcceptsBelow names branch := by
  induction branch using Branch.induction generalizing names with
  | mk first more group ih =>
      intro parser hbegins habove
      have hpath := feed_pathLexemes hbegins habove first more
      by_cases hnil : group = []
      · subst hnil
        exact ⟨_, _, hpath, Or.inl rfl, rfl, rfl, rfl⟩
      · obtain ⟨branch, branches, rfl⟩ := List.exists_cons_of_ne_nil hnil
        -- inside the group the path is the innermost one, and it is still there behind the group
        let inside : Parser :=
          ⟨.opening, Path.ofNames (names ++ first :: more) :: parser.openPaths, parser.depth + 1⟩
        have hinside : inside.Accepts (lexemesAll [] (branch :: branches)) inside.openPaths
            ((endsAll (names ++ first :: more) (branch :: branches)).map Field.ofNames) :=
          accepts_all (fun other hother => ih other hother _) (Or.inr rfl) rfl
        obtain ⟨last, completed, hfeed, hlast, hdepth, hopen, hfields⟩ := hinside
        let outside : Parser := { last.dropPath .closing with depth := parser.depth }
        have hpending : outside.pending = none :=
          pending_of_stage_ne_name (by simp [outside, dropPath])
        refine ⟨outside, completed ++ last.pending.toList, ?_, Or.inr rfl, rfl, ?_, ?_⟩
        · rw [lexemes_of_group_ne_nil first more hnil, List.append_assoc,
            feed_append_of_eq_some hpath, List.cons_append,
            feed_cons_of_moves (.group "(" rfl), feed_append_of_eq_some hfeed,
            feed_cons_of_moves (.close ")" parser.depth hlast hdepth)]
          simp [outside]
        · rw [show outside.openPaths = last.openPaths.tail from rfl, hopen]
          rfl
        · rw [ends_of_group_ne_nil names first more hnil, ← hfields, hpending, Option.toList_none,
            List.append_nil]

/-- The lexemes of a selection are accepted, and its ends are the fields. -/
theorem accepts_selection
    (selection : Selection) :
    initial.Accepts selection.lexemes [] (selection.ends.map Field.ofNames) :=
  accepts_all (fun branch _ => acceptsBelow [] branch) (Or.inl rfl) rfl

end Parser

end Selector

end FieldMask
