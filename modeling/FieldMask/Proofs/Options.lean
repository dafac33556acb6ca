import FieldMask.Options.Reader
import FieldMask.Proofs.Json.Skipping
import Mathlib.Data.List.Nodup

/-!
# Writing and reading options

Options are read back from the text they are written as, and from every object that gives their members: in any
order, with those of default values left out, and with any members of other names in between
(`read_of_givenBy`).  An object that gives a member twice is of the wrong shape (`read_of_repeated`).

A member is read from its text to what follows it (`takeMembers_of_spellsMember`), and an object member by member
(`takeMembers_of_spellsMembers`), so that whatever each member preserves holds of the object as a whole.
-/

namespace FieldMask.Options

open Json (Blanks EndsValue Fault IsValue Padded SpellsMember SpellsMembers SpellsObject SpellsScalar)

variable {options : Options} {draft : Draft} {member : Member} {name : String}
variable {blanks value text rest : List Char} {entries : List (String × List Char)}

/-! ## The members of an object -/

namespace Member

/-- The texts of the values that an object gives to a member, from its names and the texts of its values. -/
def values (member : Member) (entries : List (String × List Char)) : List (List Char) :=
  (entries.filter (·.1 == member.name)).map (·.2)

@[simp]
theorem values_nil (member : Member) :
    member.values [] = [] :=
  rfl

theorem values_cons_name
    (member : Member) (value : List Char) (entries : List (String × List Char)) :
    member.values ((member.name, value) :: entries) = value :: member.values entries := by
  simp [values]

theorem values_cons_of_ne
    (h : name ≠ member.name) (value : List Char) (entries : List (String × List Char)) :
    member.values ((name, value) :: entries) = member.values entries := by
  simp [values, h]

theorem name_injective {other : Member} (h : member.name = other.name) :
    member = other := by
  have hname := ofName?_name member
  rw [h, ofName?_name] at hname
  exact (Option.some.inj hname).symm

theorem eq_name_of_ofName? (h : ofName? name = some member) :
    name = member.name := by
  rw [ofName?, List.find?_eq_some_iff_append] at h
  exact (beq_iff_eq.mp h.1).symm

theorem ne_name_of_ofName? (h : ofName? name = none) (member : Member) :
    name ≠ member.name := by
  rintro rfl
  simp at h

end Member

/-- Whether each name has the text of a value.  Where the name is not that of a member, the form of one is
enough. -/
def HasValues (entries : List (String × List Char)) : Prop :=
  ∀ entry ∈ entries, IsValue true entry.2 ∨ (Member.ofName? entry.1 = none ∧ IsValue false entry.2)

/-- Whether a text is an object with these names and texts of values. -/
def Lists (entries : List (String × List Char)) (text : List Char) : Prop :=
  SpellsObject entries text ∧ HasValues entries

/-- Whether an object with these names and texts of values gives each member of the options, unless it has its
default value, in which case the object may leave it out. -/
def GivenBy (options : Options) (entries : List (String × List Char)) : Prop :=
  ∀ member : Member,
    (∃ value, member.values entries = [value] ∧ SpellsScalar true (options.get member) value) ∨
      (member.values entries = [] ∧ options.get member = ({} : Options).get member)

/-! ## Members of options -/

theorem ext_get
    {options other : Options} (h : ∀ member, options.get member = other.get member) :
    options = other := by
  have hignoreCase := h .ignoreCase
  have hqueryParameter := h .queryParameter
  have hpretty := h .pretty
  cases options
  cases other
  simp_all [get]

/-- Setting a member to its value in other options makes it agree with them and leaves the others alone. -/
theorem exists_set?_get
    (options other : Options) (member : Member) :
    ∃ updated, other.set? member (options.get member) = some updated ∧
      updated.get member = options.get member ∧
        ∀ another, another ≠ member → updated.get another = other.get another := by
  cases member with
  | ignoreCase | queryParameter | pretty =>
      refine ⟨_, rfl, rfl, fun another hanother => ?_⟩
      cases another <;> first | rfl | exact absurd rfl hanother

theorem takeMember_of_spellsScalar
    {value : Json} (h : SpellsScalar true value text) (hblanks : Blanks blanks) (hrest : EndsValue rest)
    (options : Options) (member : Member) :
    options.takeMember member (blanks ++ (text ++ rest)) =
      (options.set? member value).elim (.error .mismatched) fun updated => .ok (updated, rest) := by
  have hscalar : SpellsScalar Json.Rules.keeping.meaningful value text := h
  obtain ⟨c, tail, rfl, hblank, -, hread⟩ := Json.readValue_of_spellsScalar hscalar
  have hpart : Json.nextPart (blanks ++ (c :: tail ++ rest)) = .ok (c, tail ++ rest) := by
    rw [Json.nextPart_blanks_append hblanks, List.cons_append, Json.nextPart_cons hblank]
  simp only [takeMember, hpart, scalar, hread [] rest hrest]
  cases options.set? member value <;> rfl

/-- Every value of a member is read to its end, or is of the wrong type. -/
theorem takeMember_of_isValue
    (h : IsValue true value) (hblanks : Blanks blanks) (hrest : EndsValue rest) (options : Options)
    (member : Member) :
    options.takeMember member (blanks ++ (value ++ rest)) = .error .mismatched ∨
      ∃ updated, options.takeMember member (blanks ++ (value ++ rest)) = .ok (updated, rest) := by
  cases h with
  | scalar h =>
      rw [takeMember_of_spellsScalar h hblanks hrest]
      cases options.set? member _ with
      | none => exact Or.inl rfl
      | some updated => exact Or.inr ⟨updated, rfl⟩
  | emptyArray | array | emptyObject | object =>
      left
      rw [takeMember, Json.nextPart_blanks_append hblanks, List.cons_append, Json.nextPart_cons rfl]
      rfl

/-! ## One member of an object -/

/-- Whether a text is a colon and a value, with blanks around them, in front of another text that does not go on
with the value. -/
def ColonValue (value rest text : List Char) : Prop :=
  EndsValue rest ∧ ∃ between before, Blanks between ∧ Blanks before ∧
    text = between ++ ':' :: (before ++ (value ++ rest))

theorem ColonValue.exists_expectMark
    (h : ColonValue value rest text) :
    EndsValue rest ∧ ∃ before, Blanks before ∧
      Json.expectMark ':' text = .ok (before ++ (value ++ rest)) := by
  obtain ⟨hrest, between, before, hbetween, hbefore, rfl⟩ := h
  exact ⟨hrest, before, hbefore, Json.expectMark_blanks_append_cons hbetween rfl _⟩

theorem takeNamed_of_other
    (h : ColonValue value rest text) (hname : Member.ofName? name = none)
    (hvalue : IsValue true value ∨ IsValue false value) (draft : Draft) :
    takeNamed draft name text = .ok (draft, rest) := by
  obtain ⟨hrest, before, hbefore, hmark⟩ := h.exists_expectMark
  have hform : IsValue false value := hvalue.elim Json.Derives.form id
  simp [takeNamed, hname, hmark, Json.skip_append_of_isValue hform hbefore hrest, Except.map]

theorem takeNamed_of_mem
    (hmember : member ∈ draft.given) (text : List Char) :
    takeNamed draft member.name text = .error .mismatched := by
  simp [takeNamed, hmember]

theorem takeNamed_of_notMem
    (h : ColonValue value rest text) (hmember : member ∉ draft.given) :
    ∃ before, Blanks before ∧ takeNamed draft member.name text =
      (draft.options.takeMember member (before ++ (value ++ rest))).map fun (options, rest) =>
        (⟨options, member :: draft.given⟩, rest) := by
  obtain ⟨-, before, hbefore, hmark⟩ := h.exists_expectMark
  exact ⟨before, hbefore, by simp [takeNamed, hmember, hmark]⟩

/-- A text behind a comma, unless it is the first. -/
def listed (first : Bool) (text : List Char) : List Char :=
  if first then text else ',' :: text

theorem nextName_of_end
    (hblanks : Blanks blanks) (first : Bool) (rest : List Char) :
    nextName first (blanks ++ '\x7d' :: rest) = .ok (false, rest) := by
  rw [nextName, Json.nextPart_blanks_append hblanks, Json.nextPart_cons rfl]
  rfl

theorem nextName_listed
    {before : List Char} (hblanks : Blanks blanks) (hbefore : Blanks before) (first : Bool)
    (rest : List Char) :
    nextName first (blanks ++ listed first (before ++ '"' :: rest)) = .ok (true, rest) := by
  have hquote (before : List Char) (h : Blanks before) :
      Json.expectMark '"' (before ++ '"' :: rest) = .ok rest :=
    Json.expectMark_blanks_append_cons h rfl rest
  rw [nextName, Json.nextPart_blanks_append hblanks]
  cases first with
  | true =>
      have hpart : Json.nextPart (listed true (before ++ '"' :: rest)) = .ok ('"', rest) := by
        rw [listed, if_pos rfl, Json.nextPart_blanks_append hbefore, Json.nextPart_cons rfl]
      have hmark : Json.expectMark '"' ('"' :: rest) = .ok rest := hquote [] Json.blanks_nil
      simp [hpart, hmark, Except.map]
  | false =>
      have hpart : Json.nextPart (listed false (before ++ '"' :: rest)) =
          .ok (',', before ++ '"' :: rest) :=
        Json.nextPart_cons rfl _
      simp [hpart, hquote before hbefore, Except.map]

theorem takeMembers_of_end
    (hblanks : Blanks blanks) (draft : Draft) (first : Bool) (rest : List Char) :
    takeMembers draft first (blanks ++ '\x7d' :: rest) = .ok (draft.options, rest) := by
  have hname := nextName_of_end hblanks first rest
  rw [takeMembers]
  split <;> simp_all

/-- Reading takes one member off an object and goes on with the blanks behind its value. -/
theorem takeMembers_of_spellsMember
    (h : SpellsMember true name value text) (hblanks : Blanks blanks) (hrest : EndsValue rest)
    (draft : Draft) (first : Bool) :
    ∃ named after, Blanks after ∧ ColonValue value (after ++ rest) named ∧
      takeMembers draft first (blanks ++ listed first (text ++ rest)) =
        match takeNamed draft name named with
        | .error fault => .error fault
        | .ok (draft, rest) => takeMembers draft false rest := by
  obtain ⟨body, front, back, hbody, ⟨before, between, hbefore, hbetween, rfl⟩,
    ⟨leading, after, hleading, hafter, rfl⟩, rfl⟩ := h
  let named := between ++ ':' :: (leading ++ (value ++ (after ++ rest)))
  refine ⟨named, after, hafter,
    ⟨hrest.blanks_append hafter, between, leading, hbetween, hleading, rfl⟩, ?_⟩
  have htext : before ++ '"' :: (body ++ ['"']) ++ between ++ ':' :: (leading ++ value ++ after) ++ rest =
      before ++ '"' :: (body ++ '"' :: named) := by
    simp [named]
  have hname := nextName_listed hblanks hbefore first (body ++ '"' :: named)
  have hdecode : Json.Quoted.decode .keeping (body ++ '"' :: named) = .ok (name.toList, named) :=
    Json.Quoted.decode_append_of_spells hbody named
  rw [htext, takeMembers]
  split
  · simp_all
  · simp_all
  · rename_i found hfound
    obtain rfl : body ++ '"' :: named = found := by simpa [hname] using hfound
    split
    · simp_all
    · rename_i characters rest' hcharacters
      obtain ⟨rfl, rfl⟩ : name.toList = characters ∧ named = rest' := by
        simpa [hdecode] using hcharacters
      rw [String.ofList_toList]
      split <;> simp_all

/-! ## All members of an object -/

/-- Whether reading a member preserves what holds of the draft and of the members to come, or fails, where it
may, because the member is of the wrong shape. -/
def Preserved (holds : Draft → List (String × List Char) → Prop) (mayFail : Prop) : Prop :=
  ∀ ⦃draft name value entries rest named⦄, holds draft ((name, value) :: entries) →
    ColonValue value rest named →
      (∃ next, takeNamed draft name named = .ok (next, rest) ∧ holds next entries) ∨
        (takeNamed draft name named = .error .mismatched ∧ mayFail)

section

variable {holds : Draft → List (String × List Char) → Prop} {mayFail : Prop}

/-- What each member preserves holds at the end of an object, unless a member is of the wrong shape. -/
theorem takeMembers_of_spellsMembers
    (hstep : Preserved holds mayFail) (h : SpellsMembers entries text) (hdraft : holds draft entries)
    (hblanks : Blanks blanks) (first : Bool) (rest : List Char) :
    (∃ last, holds last [] ∧
      takeMembers draft first (blanks ++ listed first (text ++ '\x7d' :: rest)) =
        .ok (last.options, rest)) ∨
      (takeMembers draft first (blanks ++ listed first (text ++ '\x7d' :: rest)) = .error .mismatched ∧
        mayFail) := by
  -- The blanks behind a value are those in front of the next comma or of the closing bracket.
  induction h generalizing draft blanks first with
  | @last name value text h =>
      have hrest : EndsValue ('\x7d' :: rest) := by simp [EndsValue]
      obtain ⟨named, after, hafter, hnamed, hread⟩ :=
        takeMembers_of_spellsMember h hblanks hrest draft first
      rw [hread]
      rcases hstep hdraft hnamed with ⟨next, htake, hnext⟩ | ⟨htake, hfails⟩
      · left
        refine ⟨next, hnext, ?_⟩
        rw [htake]
        exact takeMembers_of_end hafter next false rest
      · right
        exact ⟨by rw [htake], hfails⟩
  | @cons name value text others members h _ ih =>
      have hrest : EndsValue (',' :: (others ++ '\x7d' :: rest)) := by simp [EndsValue]
      obtain ⟨named, after, hafter, hnamed, hread⟩ :=
        takeMembers_of_spellsMember h hblanks hrest draft first
      have htext : text ++ ',' :: others ++ '\x7d' :: rest = text ++ ',' :: (others ++ '\x7d' :: rest) := by
        simp
      rw [htext, hread]
      rcases hstep hdraft hnamed with ⟨next, htake, hnext⟩ | ⟨htake, hfails⟩
      · rw [htake]
        exact ih hnext hafter false
      · right
        exact ⟨by rw [htake], hfails⟩

theorem read_of_brace
    {text : String} (hblanks : Blanks blanks) (htext : text.toList = blanks ++ '\x7b' :: rest) :
    read text =
      match takeMembers ⟨{}, []⟩ true rest with
      | .error fault => .error fault
      | .ok (options, rest) => (Json.expectEnd rest).map fun _ => options := by
  have hpart : Json.nextPart text.toList = .ok ('\x7b', rest) := by
    rw [htext, Json.nextPart_blanks_append hblanks, Json.nextPart_cons rfl]
  rw [read, takeOptions, hpart]
  rfl

/-- What each member preserves holds of the options that are read, unless a member is of the wrong shape. -/
theorem read_of_spellsObject
    {text : String} (hstep : Preserved holds mayFail) (h : SpellsObject entries text.toList)
    (hdraft : holds ⟨{}, []⟩ entries) :
    (∃ last, holds last [] ∧ read text = .ok last.options) ∨ (read text = .error .mismatched ∧ mayFail) := by
  generalize hcharacters : text.toList = characters at h
  cases h with
  | @empty blanks _ hblanks hpadded =>
      obtain ⟨before, after, hbefore, hafter, rfl⟩ := hpadded
      have htext : text.toList = before ++ '\x7b' :: (blanks ++ '\x7d' :: after) := by simp [hcharacters]
      left
      refine ⟨⟨{}, []⟩, hdraft, ?_⟩
      rw [read_of_brace hbefore htext, takeMembers_of_end hblanks]
      simp [Json.expectEnd_blanks hafter, Except.map]
  | @members _ inside _ hmembers hpadded =>
      obtain ⟨before, after, hbefore, hafter, rfl⟩ := hpadded
      have htext : text.toList = before ++ '\x7b' :: ([] ++ listed true (inside ++ '\x7d' :: after)) := by
        simp [hcharacters, listed]
      rw [read_of_brace hbefore htext]
      rcases takeMembers_of_spellsMembers hstep hmembers hdraft Json.blanks_nil true after with
        ⟨last, hlast, hread⟩ | ⟨hread, hfails⟩
      · left
        refine ⟨last, hlast, ?_⟩
        rw [hread]
        simp [Json.expectEnd_blanks hafter, Except.map]
      · right
        exact ⟨by rw [hread], hfails⟩

end

/-! ## Objects that give the options -/

/-- Whether a draft agrees with the options, apart from members that are still to come once with their value in
the options. -/
def Completes (options : Options) (draft : Draft) (entries : List (String × List Char)) : Prop :=
  ∀ member : Member,
    (member ∉ draft.given ∧ ∃ value, member.values entries = [value] ∧
      SpellsScalar true (options.get member) value) ∨
      (member.values entries = [] ∧ options.get member = draft.options.get member)

theorem Completes.eq
    (h : Completes options draft []) :
    options = draft.options := by
  apply ext_get
  intro member
  rcases h member with ⟨-, value, hvalue, -⟩ | ⟨-, hget⟩
  · cases hvalue
  · exact hget

theorem Completes.other
    (h : Completes options draft ((name, value) :: entries)) (hname : Member.ofName? name = none) :
    Completes options draft entries := by
  intro member
  have hmember := h member
  rwa [Member.values_cons_of_ne (Member.ne_name_of_ofName? hname member)] at hmember

/-- The draft agrees with the options in one more member when that member has been taken. -/
theorem Completes.given
    (h : Completes options draft ((member.name, value) :: entries)) :
    member ∉ draft.given ∧ SpellsScalar true (options.get member) value ∧
      ∃ updated, draft.options.set? member (options.get member) = some updated ∧
        Completes options ⟨updated, member :: draft.given⟩ entries := by
  obtain ⟨hgiven, found, ⟨rfl, hlast⟩, hspells⟩ : member ∉ draft.given ∧ ∃ found,
      (value = found ∧ member.values entries = []) ∧ SpellsScalar true (options.get member) found := by
    simpa [Member.values_cons_name] using h member
  obtain ⟨updated, hset, hget, hothers⟩ := exists_set?_get options draft.options member
  refine ⟨hgiven, hspells, updated, hset, ?_⟩
  intro another
  by_cases hanother : another = member
  · subst hanother
    exact Or.inr ⟨hlast, hget.symm⟩
  · have hname : member.name ≠ another.name := fun hname => hanother (Member.name_injective hname).symm
    have hcase := h another
    rw [Member.values_cons_of_ne hname] at hcase
    rw [hothers another hanother]
    simpa [hanother] using hcase

theorem preserved_completes (options : Options) :
    Preserved (fun draft entries => HasValues entries ∧ Completes options draft entries) False := by
  intro draft name value entries rest named ⟨hvalues, hdraft⟩ hnamed
  obtain ⟨hvalue, hothers⟩ := List.forall_mem_cons.mp hvalues
  left
  cases hname : Member.ofName? name with
  | none =>
      exact ⟨draft, takeNamed_of_other hnamed hname (hvalue.imp_right And.right) draft, hothers,
        hdraft.other hname⟩
  | some member =>
      obtain rfl := Member.eq_name_of_ofName? hname
      obtain ⟨hgiven, hspells, updated, hset, hnext⟩ := hdraft.given
      obtain ⟨before, hbefore, htake⟩ := takeNamed_of_notMem hnamed hgiven
      refine ⟨⟨updated, member :: draft.given⟩, ?_, hothers, hnext⟩
      rw [htake, takeMember_of_spellsScalar hspells hbefore hnamed.1, hset]
      rfl

theorem read_of_givenBy
    {text : String} (h : Lists entries text.toList) (hgiven : options.GivenBy entries) :
    read text = .ok options := by
  have hdraft : Completes options ⟨{}, []⟩ entries := by
    intro member
    simpa using hgiven member
  rcases read_of_spellsObject (preserved_completes options) h.1 ⟨h.2, hdraft⟩ with
    ⟨last, ⟨-, hlast⟩, hread⟩ | ⟨-, hfails⟩
  · rw [hread, hlast.eq]
  · exact hfails.elim

/-! ## Objects that give a member twice -/

/-- Whether a member comes twice, among those that have been given and those that are still to come. -/
def Repeats (member : Member) (draft : Draft) (entries : List (String × List Char)) : Prop :=
  draft.given.Nodup ∧ 1 < draft.given.count member + (member.values entries).length

theorem Repeats.other
    (h : Repeats member draft ((name, value) :: entries)) (hname : Member.ofName? name = none) :
    Repeats member draft entries := by
  rwa [Repeats, Member.values_cons_of_ne (Member.ne_name_of_ofName? hname member)] at h

theorem Repeats.given
    {known : Member} (h : Repeats member draft ((known.name, value) :: entries))
    (hknown : known ∉ draft.given) (updated : Options) :
    Repeats member ⟨updated, known :: draft.given⟩ entries := by
  obtain ⟨hnodup, hcount⟩ := h
  refine ⟨List.nodup_cons.mpr ⟨hknown, hnodup⟩, ?_⟩
  by_cases hsame : known = member
  · subst hsame
    rw [Member.values_cons_name, List.length_cons] at hcount
    rw [List.count_cons_self]
    omega
  · have hname : known.name ≠ member.name := fun hname => hsame (Member.name_injective hname)
    rw [Member.values_cons_of_ne hname] at hcount
    rwa [List.count_cons_of_ne hsame]

theorem not_repeats_nil (member : Member) (draft : Draft) :
    ¬Repeats member draft [] := by
  rintro ⟨hnodup, hcount⟩
  have hle : draft.given.count member ≤ 1 := List.nodup_iff_count_le_one.mp hnodup member
  simp only [Member.values_nil, List.length_nil] at hcount
  omega

theorem preserved_repeats (member : Member) :
    Preserved (fun draft entries => HasValues entries ∧ Repeats member draft entries) True := by
  intro draft name value entries rest named ⟨hvalues, hdraft⟩ hnamed
  obtain ⟨hvalue, hothers⟩ := List.forall_mem_cons.mp hvalues
  cases hname : Member.ofName? name with
  | none =>
      left
      exact ⟨draft, takeNamed_of_other hnamed hname (hvalue.imp_right And.right) draft, hothers,
        hdraft.other hname⟩
  | some known =>
      have hmeaning : IsValue true value := hvalue.resolve_right (by simp [hname])
      obtain rfl := Member.eq_name_of_ofName? hname
      by_cases hknown : known ∈ draft.given
      · -- A member that was given before is objected to at its name, whatever its value.
        exact Or.inr ⟨takeNamed_of_mem hknown named, trivial⟩
      · obtain ⟨before, hbefore, htake⟩ := takeNamed_of_notMem hnamed hknown
        rcases takeMember_of_isValue hmeaning hbefore hnamed.1 draft.options known with
          hmember | ⟨updated, hmember⟩
        · exact Or.inr ⟨by rw [htake, hmember]; rfl, trivial⟩
        · exact Or.inl ⟨⟨updated, known :: draft.given⟩, by rw [htake, hmember]; rfl, hothers,
            hdraft.given hknown updated⟩

theorem read_of_repeated
    {text : String} (h : Lists entries text.toList) (hrepeated : 1 < (member.values entries).length) :
    read text = .error .mismatched := by
  have hdraft : Repeats member ⟨{}, []⟩ entries := ⟨List.nodup_nil, by simpa using hrepeated⟩
  rcases read_of_spellsObject (preserved_repeats member) h.1 ⟨h.2, hdraft⟩ with
    ⟨last, ⟨-, hlast⟩, -⟩ | ⟨hread, -⟩
  · exact absurd hlast (not_repeats_nil member last)
  · exact hread

/-! ## The text of the options -/

def valueText (options : Options) (member : Member) : List Char :=
  ((options.get member).render .compact).toList

theorem spellsScalar_valueText (options : Options) (member : Member) :
    SpellsScalar true (options.get member) (options.valueText member) := by
  have hbool (value : Bool) : SpellsScalar true (.bool value) ((Json.bool value).render .compact).toList := by
    have hspells : SpellsScalar true (.bool value) _ := .bool value
    cases value <;> simpa [Json.render, Json.pieces, String.join] using hspells
  cases member with
  | ignoreCase => exact hbool options.ignoreCase
  | queryParameter =>
      have hspells := Json.Quoted.spellsScalar_encode true options.queryParameter
      simpa [valueText, get, Json.render, Json.pieces, String.join] using hspells
  | pretty => exact hbool options.pretty

def memberText (options : Options) (member : Member) : List Char :=
  (Json.Quoted.encode member.name).toList ++ ':' :: options.valueText member

theorem lists_text (options : Options) :
    Lists (Member.all.map fun member => (member.name, options.valueText member)) options.text.toList := by
  constructor
  · have htext : options.text.toList = '\x7b' :: (options.memberText .ignoreCase ++ ',' ::
        (options.memberText .queryParameter ++ ',' :: options.memberText .pretty) ++ ['\x7d']) := by
      simp [text, toJson, memberText, valueText, Member.all, Json.render, Json.pieces, Json.memberPieces, get,
        Json.Style.compact, String.join]
    have hmember (member : Member) :
        SpellsMember true member.name (options.valueText member) (options.memberText member) :=
      Json.Quoted.spellsMember_encode true (Json.padded_self _) member.name
    rw [htext]
    exact .members (.cons (hmember .ignoreCase) (.cons (hmember .queryParameter) (.last (hmember .pretty))))
      (Json.padded_self _)
  · intro entry hentry
    obtain ⟨member, -, rfl⟩ := List.mem_map.mp hentry
    exact Or.inl (.scalar (spellsScalar_valueText options member))

theorem givenBy_text (options : Options) :
    options.GivenBy (Member.all.map fun member => (member.name, options.valueText member)) := by
  intro member
  left
  refine ⟨options.valueText member, ?_, spellsScalar_valueText options member⟩
  cases member <;> rfl

/-- Options are read back from their own text and from every object that gives them.  An object that gives a
member twice is of the wrong shape. -/
theorem reads_back (options : Options) :
    read options.text = .ok options ∧
      ∀ (text : String) (entries : List (String × List Char)), Lists entries text.toList →
        (options.GivenBy entries → read text = .ok options) ∧
          ∀ member : Member, 1 < (member.values entries).length → read text = .error .mismatched := by
  refine ⟨read_of_givenBy (lists_text options) (givenBy_text options), fun text entries h => ⟨?_, ?_⟩⟩
  · exact read_of_givenBy h
  · intro member hrepeated
    exact read_of_repeated h hrepeated

theorem reads_back_escapes :
    let options : Options := { queryParameter := "f", pretty := true }
    let entries : List (String × List Char) :=
      [("x", "[\"\\ud800\"]".toList), ("pretty", "true".toList), ("queryParameter", "\"\\u0066\"".toList)]
    let text : String := "\x7b\"x\": [\"\\ud800\"],\"pretty\":true,\"queryParameter\":\"\\u0066\"\x7d"
    let repeating : String := "\x7b\"pretty\":true,\"pretty\":true\x7d"
    Lists entries text.toList ∧ options.GivenBy entries ∧ read options.text = .ok options ∧
      read text = .ok options ∧ read repeating = .error .mismatched := by
  intro options entries text repeating
  have hhalf : Json.Quoted.SpellsUnit (((13 * 16 + 8) * 16 + 0) * 16 + 0) "d800".toList :=
    .mk rfl rfl rfl rfl
  have hletter : Json.Quoted.SpellsUnit (((0 * 16 + 0) * 16 + 6) * 16 + 6) "0066".toList :=
    .mk rfl rfl rfl rfl
  have hother : IsValue false "[\"\\ud800\"]".toList :=
    .array (.lastItem (Json.padded_self _) (.scalar (.string (.cons (.half rfl hhalf (by decide)) .nil))))
  have hpretty : SpellsScalar true (.bool true) "true".toList := .bool true
  have hparameter : SpellsScalar true (.string "f") "\"\\u0066\"".toList :=
    .string (.cons (.unit hletter (by decide)) .nil)
  have hname (name : String) (value back : List Char) (hback : Padded value back) :
      SpellsMember true name value ((Json.Quoted.encode name).toList ++ ':' :: back) :=
    Json.Quoted.spellsMember_encode true hback name
  have hblank : Padded "[\"\\ud800\"]".toList " [\"\\ud800\"]".toList :=
    ⟨[' '], [], by simp [Blanks, Json.isBlank], Json.blanks_nil, rfl⟩
  have hlists : Lists entries text.toList := by
    constructor
    · refine .members (.cons (hname _ _ _ hblank) (.cons (hname _ _ _ (Json.padded_self _))
        (.last (hname _ _ _ (Json.padded_self _))))) ?_
      exact ⟨[], [], Json.blanks_nil, Json.blanks_nil, by decide +kernel⟩
    · simp only [HasValues, entries, List.forall_mem_cons]
      exact ⟨Or.inr ⟨rfl, hother⟩, Or.inl (.scalar hpretty), Or.inl (.scalar hparameter), by simp⟩
  have hgiven : options.GivenBy entries := by
    intro member
    cases member with
    | ignoreCase => exact Or.inr ⟨rfl, rfl⟩
    | queryParameter => exact Or.inl ⟨_, rfl, hparameter⟩
    | pretty => exact Or.inl ⟨_, rfl, hpretty⟩
  obtain ⟨htext, hread⟩ := reads_back options
  have hrepeating : Lists [("pretty", "true".toList), ("pretty", "true".toList)] repeating.toList := by
    constructor
    · refine .members (.cons (hname _ _ _ (Json.padded_self _))
        (.last (hname _ _ _ (Json.padded_self _)))) ?_
      exact ⟨[], [], Json.blanks_nil, Json.blanks_nil, by decide +kernel⟩
    · simp only [HasValues, List.forall_mem_cons]
      exact ⟨Or.inl (.scalar hpretty), Or.inl (.scalar hpretty), by simp⟩
  exact ⟨hlists, hgiven, htext, (hread text entries hlists).1 hgiven,
    (hread repeating _ hrepeating).2 .pretty (by decide)⟩

end FieldMask.Options
