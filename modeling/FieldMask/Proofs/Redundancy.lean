import FieldMask.Proofs.Matching
import FieldMask.Prune.Pruner
import FieldMask.Response
import Mathlib.Data.List.DropRight

/-!
# Fields that add nothing

One field selects everything that another one selects exactly when its essential parts subsume the parts of
the other: there are no more of them, and each is the wildcard or the part of the other at its place.  Essential are
the parts without the wildcards at the end, since those agree with whatever is there (`agreesWith_essential`).

That this is needed shows in a single path: the parts of the other field with wildcards behind them, taken as
names.  The other field selects it, and a field that selects it too subsumes the other one
(`subsumes_of_agreesWith`).

A field that another one of its set subsumes can be left out of the set.
-/

namespace FieldMask

namespace Field

variable {ignoreCase : Bool} {parts general special segments : List String}

/-! ## Parts that agree with a path -/

theorem agreesWith_iff :
    agreesWith ignoreCase parts segments = true ↔
      ∀ (index : Nat) (part segment : String), parts[index]? = some part → segments[index]? = some segment →
        partAgrees ignoreCase part segment = true := by
  induction parts generalizing segments with
  | nil => simp [agreesWith]
  | cons first parts ih =>
      cases segments with
      | nil => simp [agreesWith]
      | cons segment segments =>
          rw [agreesWith, Bool.and_eq_true, ih]
          constructor
          · rintro ⟨hfirst, hothers⟩ index
            cases index with
            | zero => simpa using hfirst
            | succ index => simpa using hothers index
          · intro h
            exact ⟨h 0 first segment rfl rfl, fun index => h (index + 1)⟩

theorem agreesWith_append_self
    (parts more : List String) :
    agreesWith ignoreCase parts (parts ++ more) = true := by
  induction parts with
  | nil => simp [agreesWith]
  | cons part parts ih =>
      rw [List.cons_append, agreesWith, Bool.and_eq_true, partAgrees, Bool.or_eq_true]
      exact ⟨Or.inr (Text.agree_refl ignoreCase part), ih⟩

/-- Wildcards at the end agree with whatever is there. -/
theorem agreesWith_append_wildcards
    {wildcards : List String} (h : ∀ part ∈ wildcards, part = wildcard) (parts segments : List String) :
    agreesWith ignoreCase (parts ++ wildcards) segments = agreesWith ignoreCase parts segments := by
  induction parts generalizing segments with
  | nil => simpa [agreesWith] using agreesWith_of_forall_wildcard h segments
  | cons part parts ih =>
      cases segments with
      | nil => simp [agreesWith]
      | cons segment segments => rw [List.cons_append, agreesWith, agreesWith, ih]

/-! ## Essential parts -/

/-- The parts without the wildcards at the end; the first part always stays. -/
def essential : List String → List String
  | [] => []
  | part :: parts => part :: parts.rdropWhile (· == wildcard)

@[simp]
theorem agreesWith_essential :
    agreesWith ignoreCase (essential parts) segments = agreesWith ignoreCase parts segments := by
  cases parts with
  | nil => rfl
  | cons part parts =>
      have hwildcards : ∀ part ∈ parts.rtakeWhile (· == wildcard), part = wildcard := by
        intro part hpart
        simpa using List.mem_rtakeWhile_imp hpart
      have hparts : part :: parts =
          essential (part :: parts) ++ parts.rtakeWhile (· == wildcard) := by
        rw [essential, List.cons_append, List.rdropWhile_append_rtakeWhile]
      rw [hparts, agreesWith_append_wildcards hwildcards, ← hparts]

/-- The last essential part is no wildcard, unless it is the only one. -/
theorem ne_wildcard_of_essential
    {index : Nat} {part : String} (hpart : (essential parts)[index]? = some part)
    (hlast : (essential parts).length = index + 1) (hindex : index ≠ 0) :
    part ≠ wildcard := by
  cases parts with
  | nil => simp [essential] at hpart
  | cons first parts =>
      obtain ⟨before, rfl⟩ := Nat.exists_eq_succ_of_ne_zero hindex
      rw [essential, List.getElem?_cons_succ] at hpart
      have hlength : before = (parts.rdropWhile (· == wildcard)).length - 1 := by
        simp only [essential, List.length_cons] at hlast
        omega
      have hne : parts.rdropWhile (· == wildcard) ≠ [] := by
        intro hnil
        simp [hnil] at hpart
      rw [hlength, ← List.getLast?_eq_getElem?, List.getLast?_eq_some_getLast hne,
        Option.some.injEq] at hpart
      have hnot := List.rdropWhile_last_not (· == wildcard) parts hne
      rw [hpart] at hnot
      simpa using hnot

/-! ## Parts that subsume other parts -/

/-- Whether there are no more parts than the others, and each is the wildcard or the other one at its
place. -/
def Subsumes (general special : List String) : Prop :=
  general.length ≤ special.length ∧
    ∀ (index : Nat) (h : index < general.length),
      general[index] = wildcard ∨ special[index]? = some general[index]

instance (general special : List String) : Decidable (Subsumes general special) :=
  inferInstanceAs (Decidable (general.length ≤ special.length ∧
    ∀ (index : Nat) (h : index < general.length),
      general[index] = wildcard ∨ special[index]? = some general[index]))

theorem subsumes_essential_self
    (parts : List String) :
    Subsumes (essential parts) parts := by
  have hfront : essential parts <+: parts := by
    cases parts with
    | nil => exact List.prefix_rfl
    | cons part parts =>
        exact (List.prefix_cons_inj part).mpr (List.rdropWhile_prefix _ parts)
  refine ⟨hfront.length_le, fun index hindex => Or.inr ?_⟩
  exact List.prefix_iff_getElem?.mp hfront index hindex

/-- Parts agree with whatever the parts that they subsume agree with. -/
theorem Subsumes.agreesWith
    (h : Subsumes general special) (hspecial : agreesWith ignoreCase special segments = true) :
    agreesWith ignoreCase general segments = true := by
  rw [agreesWith_iff] at hspecial ⊢
  intro index part segment hpart hsegment
  obtain ⟨hindex, rfl⟩ := List.getElem?_eq_some_iff.mp hpart
  rcases h.2 index hindex with hwildcard | hsame
  · simp [partAgrees, hwildcard]
  · exact hspecial index _ segment hsame hsegment

/-- Essential parts that agree with others and wildcards behind them subsume those. -/
theorem subsumes_of_agreesWith
    (hspecial : special ≠ [])
    (h : agreesWith false (essential general)
      (special ++ List.replicate (essential general).length wildcard) = true) :
    Subsumes (essential general) special := by
  rw [agreesWith_iff] at h
  have hinside : ∀ (index : Nat) (hindex : index < (essential general).length),
      index < special.length →
        (essential general)[index] = wildcard ∨
          special[index]? = some (essential general)[index] := by
    intro index hindex hshort
    have hsegment : (special ++ List.replicate (essential general).length wildcard)[index]? =
        some special[index] := by
      rw [List.getElem?_append_left hshort, List.getElem?_eq_getElem hshort]
    have hagrees := h index _ _ (List.getElem?_eq_getElem hindex) hsegment
    rw [partAgrees, Bool.or_eq_true, beq_iff_eq, Text.agree_false] at hagrees
    exact hagrees.imp_right fun hsame => by rw [List.getElem?_eq_getElem hshort, hsame]
  have hbeyond : ∀ (index : Nat) (hindex : index < (essential general).length),
      special.length ≤ index → (essential general)[index] = wildcard := by
    intro index hindex hlong
    have hsegment : (special ++ List.replicate (essential general).length wildcard)[index]? =
        some wildcard := by
      rw [List.getElem?_append_right hlong, List.getElem?_replicate, if_pos (by omega)]
    have hagrees := h index _ wildcard (List.getElem?_eq_getElem hindex) hsegment
    simpa [partAgrees] using hagrees
  constructor
  · by_contra hlonger
    have hpositive := List.length_pos_iff.mpr hspecial
    have hlast : (essential general).length - 1 < (essential general).length := by omega
    exact ne_wildcard_of_essential (List.getElem?_eq_getElem hlast) (by omega) (by omega)
      (hbeyond _ hlast (by omega))
  · intro index hindex
    rcases Nat.lt_or_ge index special.length with hshort | hlong
    · exact hinside index hindex hshort
    · exact Or.inl (hbeyond index hindex hlong)

/-! ## Fields that select all that another one selects -/

/-- The parts of a field with wildcards behind them are the segments of a path. -/
theorem exists_segments_eq_append_wildcards
    (field : Field) (count : Nat) :
    ∃ path, Path.segments path = field.parts ++ List.replicate count wildcard := by
  refine ⟨"/".intercalate (field.parts ++ List.replicate count wildcard), ?_⟩
  apply Path.segments_intercalate
  · simp [field.parts_ne_nil]
  · intro part hpart
    rcases List.mem_append.mp hpart with hpart | hpart
    · exact field.slash_notMem part hpart
    · rw [List.eq_of_mem_replicate hpart]
      decide

theorem forall_selects_iff_subsumes
    (special general : Field) :
    (∀ path, special.selects false path = true → general.selects false path = true) ↔
      Subsumes (essential general.parts) special.parts := by
  constructor
  · intro h
    obtain ⟨path, hpath⟩ :=
      special.exists_segments_eq_append_wildcards (essential general.parts).length
    have hselects : general.selects false path = true := by
      apply h
      rw [selects, matchesSegments, hpath]
      exact agreesWith_append_self _ _
    rw [selects, matchesSegments, hpath, ← agreesWith_essential] at hselects
    exact subsumes_of_agreesWith special.parts_ne_nil hselects
  · intro h path hselects
    rw [selects, matchesSegments, ← agreesWith_essential]
    exact h.agreesWith hselects

theorem selects_ofString_slash_wildcard
    (path candidate : String) :
    (ofString (path ++ "/*")).selects ignoreCase candidate =
      (ofString path).selects ignoreCase candidate := by
  have hsegments : Path.segments (path ++ "/*") = Path.segments path ++ [wildcard] := by
    have htext : (path ++ "/*").toList = path.toList ++ '/' :: ['*'] := by simp
    simp only [Path.segments, htext, List.splitOn_append_cons_self, List.map_append]
    rfl
  rw [selects, selects, matchesSegments, matchesSegments, parts_ofString, parts_ofString, hsegments]
  exact agreesWith_append_wildcards (by simp) _ _

end Field

namespace FieldSet

open FieldMask.Field (Subsumes essential)

/-- Leaving out fields that others subsume changes nothing. -/
theorem selects_eq_of_subsumes
    {whole rest : FieldSet} (hsub : rest.fields ⊆ whole.fields)
    (hsubsumed : ∀ field ∈ whole.fields, ∃ general ∈ rest.fields,
      Subsumes (essential general.parts) field.parts)
    (ignoreCase : Bool) :
    rest.selects ignoreCase = whole.selects ignoreCase := by
  funext path
  rw [Bool.eq_iff_iff]
  constructor
  · exact selects_of_subset hsub id
  · intro hselects
    rw [selects, List.any_eq_true] at hselects ⊢
    obtain ⟨field, hfield, hmatches⟩ := hselects
    obtain ⟨general, hgeneral, hsubsumes⟩ := hsubsumed field hfield
    refine ⟨general, hgeneral, ?_⟩
    rw [Field.matchesSegments, ← Field.agreesWith_essential]
    exact hsubsumes.agreesWith hmatches

/-- A field selects all that another one selects exactly when its essential parts subsume the other one; a
wildcard at the end of a field changes nothing; and a set that keeps a field may lose any field that this one
subsumes, for all that the set selects and for what is left of a tree. -/
theorem redundant_iff_subsumes
    (special general : Field) :
    ((∀ path, special.selects false path = true → general.selects false path = true) ↔
      Subsumes (essential general.parts) special.parts) ∧
    (∀ (path candidate : String) (ignoreCase : Bool),
      (Field.ofString (path ++ "/*")).selects ignoreCase candidate =
        (Field.ofString path).selects ignoreCase candidate) ∧
    (Subsumes (essential general.parts) special.parts →
      ∀ whole rest : FieldSet, general ∈ rest.fields → rest.fields ⊆ whole.fields →
        (∀ field ∈ whole.fields, field = special ∨ field ∈ rest.fields) →
        ∀ ignoreCase,
          (∀ path, rest.selects ignoreCase path = whole.selects ignoreCase path) ∧
          ∀ tree,
            Response.select tree (some rest) ignoreCase =
              Response.select tree (some whole) ignoreCase ∧
            ∀ remembers,
              ((Prune.Pruner.new (rest.selects ignoreCase) remembers).apply tree).1 =
                ((Prune.Pruner.new (whole.selects ignoreCase) remembers).apply tree).1) := by
  refine ⟨Field.forall_selects_iff_subsumes special general,
    fun path candidate _ => Field.selects_ofString_slash_wildcard path candidate, ?_⟩
  intro hsubsumes whole rest hgeneral hsub hrest ignoreCase
  have hsubsumed : ∀ field ∈ whole.fields, ∃ general ∈ rest.fields,
      Subsumes (essential general.parts) field.parts := by
    intro field hfield
    rcases hrest field hfield with rfl | hkept
    · exact ⟨general, hgeneral, hsubsumes⟩
    · exact ⟨field, hkept, Field.subsumes_essential_self field.parts⟩
  have hsame := selects_eq_of_subsumes hsub hsubsumed ignoreCase
  refine ⟨congrFun hsame, fun tree => ⟨?_, ?_⟩⟩
  · rw [Response.select, Response.select, hsame]
  · intro remembers
    rw [hsame]

theorem redundant_iff_subsumes_characters :
    Subsumes (essential (Field.ofString "characters/*/first/*/*").parts)
      (Field.ofString "characters/name/first").parts ∧
    (∀ path, (Field.ofString "characters/name/first").selects false path = true →
      (Field.ofString "characters/*/first/*/*").selects false path = true) ∧
    ∀ ignoreCase tree,
      Response.select tree (some (ofPaths ["id", "characters/*/first/*/*"])) ignoreCase =
        Response.select tree
          (some (ofPaths ["characters/name/first", "id", "characters/*/first/*/*"])) ignoreCase := by
  have h := redundant_iff_subsumes (Field.ofString "characters/name/first")
    (Field.ofString "characters/*/first/*/*")
  have hsubsumes : Subsumes (essential (Field.ofString "characters/*/first/*/*").parts)
      (Field.ofString "characters/name/first").parts := by
    decide +kernel
  refine ⟨hsubsumes, h.1.mpr hsubsumes, fun ignoreCase tree => ?_⟩
  exact ((h.2.2 hsubsumes (ofPaths ["characters/name/first", "id", "characters/*/first/*/*"])
    (ofPaths ["id", "characters/*/first/*/*"]) (by simp [ofPaths]) (by simp [ofPaths])
    (by simp [ofPaths]) ignoreCase).2 tree).1

end FieldSet

end FieldMask
