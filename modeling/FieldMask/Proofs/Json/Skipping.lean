import FieldMask.Json.Reader
import FieldMask.Proofs.Json.Numerals
import FieldMask.Proofs.Json.Strings

/-!
# Passing over values

A value at the front of a text is read to its end and no further, when nothing follows that a number could go on
with.  For scalars this holds under all rules, and what they denote is read (`readValue_of_spellsScalar`).  For
values with containers it holds where containers may lie inside one another to any depth, as in values that are
only passed over (`skip_append_of_isValue`).

The proof for containers goes along the grammar: reading stands in front of a part of the text and then behind it
with the same containers open (`passes_of_derives`).
-/

namespace FieldMask.Json

variable {rules : Rules} {blanks text rest : List Char}

/-! ## Blanks -/

theorem expectEnd_blanks
    (h : Blanks blanks) :
    expectEnd blanks = .ok () := by
  rw [expectEnd, skipBlanks, List.dropWhile_eq_nil_iff.mpr h]
  rfl

theorem nextPart_blanks_append
    (h : Blanks blanks) (text : List Char) :
    nextPart (blanks ++ text) = nextPart text := by
  rw [nextPart, nextPart, skipBlanks, skipBlanks, List.dropWhile_append_of_pos h]

theorem nextPart_cons
    {c : Char} (hc : isBlank c = false) (rest : List Char) :
    nextPart (c :: rest) = .ok (c, rest) := by
  simp [nextPart, skipBlanks, hc]

theorem expectMark_blanks_append_cons
    {mark : Char} (h : Blanks blanks) (hmark : isBlank mark = false) (rest : List Char) :
    expectMark mark (blanks ++ mark :: rest) = .ok rest := by
  rw [expectMark, nextPart_blanks_append h, nextPart_cons hmark]
  simp

/-! ## What may follow a value -/

/-- Whether a text begins like what may follow a value, or is empty. -/
def EndsValue (text : List Char) : Prop :=
  ∀ c ∈ text.head?, isBlank c = true ∨ c = ',' ∨ c = ']' ∨ c = '\x7d'

theorem EndsValue.blanks_append
    (hrest : EndsValue rest) (h : Blanks blanks) :
    EndsValue (blanks ++ rest) := by
  cases blanks with
  | nil => exact hrest
  | cons c blanks =>
      intro d hd
      obtain rfl : c = d := by simpa using hd
      exact Or.inl (h c List.mem_cons_self)

theorem EndsValue.stops
    (h : EndsValue text) :
    Numeral.Stops text := by
  intro c hc
  rcases h c hc with hblank | rfl | rfl | rfl
  · simp only [isBlank, Bool.or_eq_true, beq_iff_eq] at hblank
    rcases hblank with ((rfl | rfl) | rfl) | rfl <;> decide
  all_goals decide

/-! ## Scalars -/

theorem ne_of_begins_numeral
    {c d : Char} (hc : c = '-' ∨ isDigit c = true) (hminus : d ≠ '-') (hdigit : isDigit d = false) :
    c ≠ d := by
  rintro rfl
  rcases hc with hc | hc
  · exact hminus hc
  · rw [hdigit] at hc
    cases hc

theorem readValue_of_spells_numeral
    {numeral : Numeral} (h : numeral.Spells text) :
    ∃ c tail, text = c :: tail ∧ isBlank c = false ∧ c ≠ ']' ∧
      ∀ frames rest, EndsValue rest →
        (rules.meaningful = false →
          readValue rules frames c (tail ++ rest) = .ok (⟨frames, .following .null⟩, rest)) ∧
        ∀ value, rules.meaningful = true → numeral.value? = some value →
          readValue rules frames c (tail ++ rest) =
            .ok (⟨frames, .following (.number value)⟩, rest) := by
  obtain ⟨c, tail, rfl, hc⟩ := h.exists_cons
  have hblanks : c ≠ ' ' ∧ c ≠ '\n' ∧ c ≠ '\t' ∧ c ≠ '\r' := by
    refine ⟨?_, ?_, ?_, ?_⟩ <;> exact ne_of_begins_numeral hc (by decide) (by decide)
  have hmarks : c ≠ '[' ∧ c ≠ '\x7b' ∧ c ≠ '"' ∧ c ≠ 't' ∧ c ≠ 'f' ∧ c ≠ 'n' := by
    refine ⟨?_, ?_, ?_, ?_, ?_, ?_⟩ <;> exact ne_of_begins_numeral hc (by decide) (by decide)
  refine ⟨c, tail, rfl, by simp [isBlank, hblanks], ne_of_begins_numeral hc (by decide) (by decide), ?_⟩
  intro frames rest hrest
  have hscan : Numeral.scan rules (c :: (tail ++ rest)) = .ok (numeral, rest) :=
    Numeral.scan_append_of_spells h hrest.stops
  constructor
  · intro hmeaningful
    simp [readValue, hmarks, hc, hscan, hmeaningful]
  · intro value hmeaningful hvalue
    simp [readValue, hmarks, hc, hscan, hmeaningful, hvalue]

/-- A scalar is read as the value that it spells. -/
theorem readValue_of_spellsScalar
    {value : Json} (h : SpellsScalar rules.meaningful value text) :
    ∃ c tail, text = c :: tail ∧ isBlank c = false ∧ c ≠ ']' ∧
      ∀ frames rest, EndsValue rest →
        readValue rules frames c (tail ++ rest) = .ok (⟨frames, .following value⟩, rest) := by
  cases h with
  | null => exact ⟨'n', ['u', 'l', 'l'], rfl, rfl, by decide, fun frames rest _ => rfl⟩
  | bool value =>
      cases value with
      | true => exact ⟨'t', ['r', 'u', 'e'], rfl, rfl, by decide, fun frames rest _ => rfl⟩
      | false => exact ⟨'f', ['a', 'l', 's', 'e'], rfl, rfl, by decide, fun frames rest _ => rfl⟩
  | number hmeaningful h hvalue =>
      obtain ⟨c, tail, htext, hblank, hbracket, hread⟩ := readValue_of_spells_numeral h
      exact ⟨c, tail, htext, hblank, hbracket, fun frames rest hrest =>
        (hread frames rest hrest).2 _ hmeaningful hvalue⟩
  | numeral hmeaningful h =>
      obtain ⟨c, tail, htext, hblank, hbracket, hread⟩ := readValue_of_spells_numeral h
      exact ⟨c, tail, htext, hblank, hbracket, fun frames rest hrest =>
        (hread frames rest hrest).1 hmeaningful⟩
  | @string characters text h =>
      refine ⟨'"', text ++ ['"'], rfl, rfl, by decide, fun frames rest _ => ?_⟩
      have hdecode := Quoted.decode_append_of_spells h rest
      simp [readValue, hdecode, Except.map]

/-! ## Single steps -/

theorem readOn_complete
    (value : Json) (text : List Char) :
    readOn rules ⟨[], .following value⟩ text = .ok (value, text) := by
  rw [readOn.eq_def]

theorem readStep_complete
    {rules : Rules} (value : Json) (text : List Char) :
    ∃ fault, readStep rules ⟨[], .following value⟩ text = .error fault := by
  unfold readStep
  split
  · exact ⟨_, rfl⟩
  · exact ⟨.malformed, rfl⟩

/-- Reading goes on where a step can be made. -/
theorem readOn_of_readStep
    {state next : ReadState} (h : readStep rules state text = .ok (next, rest)) :
    readOn rules state text = readOn rules next rest := by
  rw [readOn.eq_def]
  split
  · rename_i value
    obtain ⟨fault, hfault⟩ := readStep_complete value text
    rw [hfault] at h
    cases h
  · split <;> simp_all

theorem readOn_of_readPart
    {state next : ReadState} {c : Char} {after : List Char} (h : Blanks blanks) (hc : isBlank c = false)
    (hpart : readPart rules state c rest = .ok (next, after)) :
    readOn rules state (blanks ++ c :: rest) = readOn rules next after := by
  apply readOn_of_readStep
  rw [readStep, nextPart_blanks_append h, nextPart_cons hc]
  exact hpart

/-! ## Values with containers -/

/-- What reading does with a part of a text: it comes to stand behind it, or behind the closing bracket of what
is inside a container, with the same containers open. -/
def Passes (rules : Rules) : Category → List Char → Prop
  | .value, text => ∀ frames awaiting blanks rest, awaiting = .value ∨ awaiting = .firstItem →
    Blanks blanks → EndsValue rest →
      ∃ tree, readOn rules ⟨frames, awaiting⟩ (blanks ++ (text ++ rest)) =
        readOn rules ⟨frames, .following tree⟩ rest
  | .items, text => ∀ frames items awaiting rest, awaiting = .value ∨ awaiting = .firstItem →
    ∃ tree, readOn rules ⟨.array items :: frames, awaiting⟩ (text ++ ']' :: rest) =
      readOn rules ⟨frames, .following tree⟩ rest
  | .members, text => ∀ frames members awaiting rest,
    awaiting = .name members ∨ (awaiting = .firstName ∧ members = []) →
      ∃ tree, readOn rules ⟨frames, awaiting⟩ (text ++ '\x7d' :: rest) =
        readOn rules ⟨frames, .following tree⟩ rest

theorem passes_value
    {c : Char} {tail : List Char} (hc : isBlank c = false) (hbracket : c ≠ ']')
    (h : ∀ frames rest, EndsValue rest → ∃ next after tree,
      readValue rules frames c (tail ++ rest) = .ok (next, after) ∧
        readOn rules next after = readOn rules ⟨frames, .following tree⟩ rest) :
    Passes rules .value (c :: tail) := by
  intro frames awaiting blanks rest hawaiting hblanks hrest
  obtain ⟨next, after, tree, hvalue, hbehind⟩ := h frames rest hrest
  have hpart : readPart rules ⟨frames, awaiting⟩ c (tail ++ rest) = .ok (next, after) := by
    rcases hawaiting with rfl | rfl
    · exact hvalue
    · rw [readPart, if_neg hbracket]
      exact hvalue
  exact ⟨tree, by rw [List.cons_append, readOn_of_readPart hblanks hc hpart, hbehind]⟩

/-- An item is passed over with the blanks in front of it. -/
theorem Passes.item
    {value : List Char} (h : Passes rules .value value) (hpadded : Padded value text)
    {awaiting : Awaiting} (hawaiting : awaiting = .value ∨ awaiting = .firstItem)
    (frames : List Frame) (hrest : EndsValue rest) :
    ∃ tree after, Blanks after ∧
      readOn rules ⟨frames, awaiting⟩ (text ++ rest) =
        readOn rules ⟨frames, .following tree⟩ (after ++ rest) := by
  obtain ⟨before, after, hbefore, hafter, rfl⟩ := hpadded
  obtain ⟨tree, hread⟩ := h frames awaiting before (after ++ rest) hawaiting hbefore
    (hrest.blanks_append hafter)
  exact ⟨tree, after, hafter, by simpa using hread⟩

/-- A member is passed over up to the blanks behind its value. -/
theorem Passes.member
    {name : String} {value : List Char} (h : Passes rules .value value)
    (hmember : SpellsMember rules.meaningful name value text)
    {members : List (String × Json)} {awaiting : Awaiting}
    (hawaiting : awaiting = .name members ∨ (awaiting = .firstName ∧ members = []))
    (frames : List Frame) (hrest : EndsValue rest) :
    ∃ tree after, Blanks after ∧
      readOn rules ⟨frames, awaiting⟩ (text ++ rest) =
        readOn rules ⟨.object members name :: frames, .following tree⟩ (after ++ rest) := by
  obtain ⟨body, front, back, hbody, ⟨before, between, hbefore, hbetween, rfl⟩, hback, rfl⟩ := hmember
  have hname : readName rules frames members '"' (body ++ '"' :: (between ++ ':' :: (back ++ rest))) =
      .ok (⟨frames, .colon members name⟩, between ++ ':' :: (back ++ rest)) := by
    simp [readName, Quoted.decode_append_of_spells hbody, Except.map]
  have hpart : readPart rules ⟨frames, awaiting⟩ '"'
      (body ++ '"' :: (between ++ ':' :: (back ++ rest))) =
        .ok (⟨frames, .colon members name⟩, between ++ ':' :: (back ++ rest)) := by
    rcases hawaiting with rfl | ⟨rfl, rfl⟩ <;> exact hname
  have hcolon : readPart rules ⟨frames, .colon members name⟩ ':' (back ++ rest) =
      .ok (⟨.object members name :: frames, .value⟩, back ++ rest) :=
    rfl
  obtain ⟨tree, after, hafter, hread⟩ :=
    h.item hback (Or.inl rfl) (.object members name :: frames) hrest
  refine ⟨tree, after, hafter, ?_⟩
  rw [← hread, ← readOn_of_readPart hbetween rfl hcolon, ← readOn_of_readPart hbefore rfl hpart]
  simp

/-- Reading passes over every part that the grammar derives, if containers may lie inside one another to any
depth. -/
theorem passes_of_derives
    (hdepth : rules.maxDepth = none) {category : Category}
    (h : Derives rules.meaningful category text) :
    Passes rules category text := by
  have hadmit : ∀ frames, rules.admitInside frames = true := by simp [Rules.admitInside, hdepth]
  have hends : ∀ c ∈ [',', ']', '\x7d'], ∀ rest, EndsValue (c :: rest) := by simp [EndsValue]
  induction h with
  | scalar h =>
      obtain ⟨c, tail, rfl, hblank, hbracket, hread⟩ := readValue_of_spellsScalar h
      exact passes_value hblank hbracket fun frames rest hrest => ⟨_, _, _, hread frames rest hrest, rfl⟩
  | @emptyArray blanks h =>
      apply passes_value rfl (by decide)
      intro frames rest _
      refine ⟨⟨.array [] :: frames, .firstItem⟩, blanks ++ ']' :: rest, .array [], ?_, ?_⟩
      · simp [readValue, hadmit]
      · exact readOn_of_readPart h rfl rfl
  | @array text _ ih =>
      apply passes_value rfl (by decide)
      intro frames rest _
      obtain ⟨tree, hread⟩ := ih frames [] .firstItem rest (Or.inr rfl)
      refine ⟨⟨.array [] :: frames, .firstItem⟩, text ++ ']' :: rest, tree, ?_, hread⟩
      simp [readValue, hadmit]
  | @emptyObject blanks h =>
      apply passes_value rfl (by decide)
      intro frames rest _
      refine ⟨⟨frames, .firstName⟩, blanks ++ '\x7d' :: rest, .object [], ?_, ?_⟩
      · simp [readValue, hadmit]
      · exact readOn_of_readPart h rfl rfl
  | @object text _ ih =>
      apply passes_value rfl (by decide)
      intro frames rest _
      obtain ⟨tree, hread⟩ := ih frames [] .firstName rest (Or.inr ⟨rfl, rfl⟩)
      refine ⟨⟨frames, .firstName⟩, text ++ '\x7d' :: rest, tree, ?_, hread⟩
      simp [readValue, hadmit]
  | lastItem hpadded _ ih =>
      intro frames items awaiting rest hawaiting
      obtain ⟨tree, after, hafter, hread⟩ :=
        ih.item hpadded hawaiting (.array items :: frames) (hends ']' (by simp) rest)
      exact ⟨_, by rw [hread, readOn_of_readPart hafter rfl rfl]⟩
  | item hpadded _ _ ih ihrest =>
      intro frames items awaiting rest hawaiting
      obtain ⟨tree, after, hafter, hread⟩ :=
        ih.item hpadded hawaiting (.array items :: frames) (hends ',' (by simp) _)
      obtain ⟨others, hothers⟩ := ihrest frames (tree :: items) .value rest (Or.inl rfl)
      refine ⟨others, ?_⟩
      rw [List.append_assoc, List.cons_append, hread, readOn_of_readPart hafter rfl rfl, hothers]
  | lastMember hmember _ ih =>
      intro frames members awaiting rest hawaiting
      obtain ⟨tree, after, hafter, hread⟩ :=
        ih.member hmember hawaiting frames (hends '\x7d' (by simp) rest)
      exact ⟨_, by rw [hread, readOn_of_readPart hafter rfl rfl]⟩
  | @member name _ _ _ hmember _ _ ih ihrest =>
      intro frames members awaiting rest hawaiting
      obtain ⟨tree, after, hafter, hread⟩ :=
        ih.member hmember hawaiting frames (hends ',' (by simp) _)
      obtain ⟨others, hothers⟩ :=
        ihrest frames (insert members name tree) (.name _) rest (Or.inl rfl)
      refine ⟨others, ?_⟩
      rw [List.append_assoc, List.cons_append, hread, readOn_of_readPart hafter rfl rfl, hothers]

/-! ## Form -/

/-- A string has the form of one: a surrogate pair is two halves. -/
theorem Quoted.Spells.form
    {characters text : List Char} (h : Quoted.Spells true characters text) :
    ∃ others, Quoted.Spells false others text := by
  induction h with
  | nil => exact ⟨[], .nil⟩
  | @cons c piece characters text hpiece _ ih =>
      obtain ⟨others, hothers⟩ := ih
      cases hpiece with
      | plain hquote hescape hcontrol => exact ⟨_, .cons (.plain hquote hescape hcontrol) hothers⟩
      | letter hletter => exact ⟨_, .cons (.letter hletter) hothers⟩
      | unit hunit hrange => exact ⟨_, .cons (.unit hunit hrange) hothers⟩
      | pair _ hhigh hrange hlow hrange' =>
          have hfirst := SpellsChar.half rfl hhigh (by omega)
          have hsecond := SpellsChar.half rfl hlow (by omega)
          exact ⟨_, by simpa using Spells.cons hfirst (.cons hsecond hothers)⟩
      | half hmeaningful => cases hmeaningful

theorem SpellsScalar.form
    {value : Json} (h : SpellsScalar true value text) :
    ∃ other, SpellsScalar false other text := by
  cases h with
  | null => exact ⟨_, .null⟩
  | bool value => exact ⟨_, .bool value⟩
  | number _ h => exact ⟨_, .numeral rfl h⟩
  | numeral hmeaningful => cases hmeaningful
  | string h =>
      obtain ⟨others, hothers⟩ := h.form
      exact ⟨_, .string hothers⟩

theorem SpellsMember.form
    {name : String} {value : List Char} (h : SpellsMember true name value text) :
    ∃ other, SpellsMember false other value text := by
  obtain ⟨body, front, back, hbody, hrest⟩ := h
  obtain ⟨others, hothers⟩ := hbody.form
  exact ⟨String.ofList others, body, front, back, by rwa [String.toList_ofList], hrest⟩

/-- What has a meaning has the form of a value. -/
theorem Derives.form
    {category : Category} (h : Derives true category text) :
    Derives false category text := by
  induction h with
  | scalar h =>
      obtain ⟨other, hother⟩ := h.form
      exact .scalar hother
  | emptyArray h => exact .emptyArray h
  | array _ ih => exact .array ih
  | emptyObject h => exact .emptyObject h
  | object _ ih => exact .object ih
  | lastItem hpadded _ ih => exact .lastItem hpadded ih
  | item hpadded _ _ ih ihrest => exact .item hpadded ih ihrest
  | lastMember hmember _ ih =>
      obtain ⟨other, hother⟩ := hmember.form
      exact .lastMember hother ih
  | member hmember _ _ ih ihrest =>
      obtain ⟨other, hother⟩ := hmember.form
      exact .member hother ih ihrest

/-! ## Whole values -/

/-- A value that is passed over is passed over to its end, with the blanks in front of it. -/
theorem skip_append_of_isValue
    (h : IsValue false text) (hblanks : Blanks blanks) (hrest : EndsValue rest) :
    skip (blanks ++ (text ++ rest)) = .ok rest := by
  have hpasses : Passes .skipping .value text := passes_of_derives rfl h
  obtain ⟨tree, hread⟩ := hpasses [] .value blanks rest (Or.inl rfl) hblanks hrest
  rw [skip, takeValue, hread, readOn_complete]
  rfl

end FieldMask.Json
