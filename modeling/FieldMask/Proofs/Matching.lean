import FieldMask.FieldSet

/-!
# What else a selector selects

A set that selects a path selects every path whose segments are the first segments of it: all that lies on
the way to what is asked for is selected with it.  A set never selects less when it gets more fields, nor
when letter case is ignored.
-/

namespace FieldMask

theorem Text.agree_of_le
    {exact other : Bool} (h : exact = true → other = true) {a b : String}
    (hagree : agree exact a b = true) :
    agree other a b = true := by
  by_cases hexact : exact = true
  · rw [hexact] at hagree
    rw [h hexact]
    exact hagree
  · rw [Bool.not_eq_true] at hexact
    rw [hexact, agree_false] at hagree
    subst hagree
    exact agree_refl other a

namespace Field

variable {ignoreCase : Bool} {parts : List String}

theorem agreesWith_of_isPrefix
    {front segments : List String} (hfront : front <+: segments)
    (h : agreesWith ignoreCase parts segments = true) :
    agreesWith ignoreCase parts front = true := by
  induction parts generalizing front segments with
  | nil => simp [agreesWith]
  | cons part parts ih =>
      obtain ⟨others, rfl⟩ := hfront
      cases front with
      | nil => simp [agreesWith]
      | cons segment front =>
          rw [List.cons_append, agreesWith, Bool.and_eq_true] at h
          rw [agreesWith, Bool.and_eq_true]
          exact ⟨h.1, ih (List.prefix_append front others) h.2⟩

/-- What lies beneath a path that uses up all parts of a field makes no difference to the field. -/
theorem agreesWith_of_length_le
    {segments longer : List String} (hlength : parts.length ≤ segments.length)
    (hbeneath : segments <+: longer) (h : agreesWith ignoreCase parts segments = true) :
    agreesWith ignoreCase parts longer = true := by
  induction parts generalizing segments longer with
  | nil => simp [agreesWith]
  | cons part parts ih =>
      obtain ⟨others, rfl⟩ := hbeneath
      cases segments with
      | nil => simp at hlength
      | cons segment segments =>
          rw [agreesWith, Bool.and_eq_true] at h
          rw [List.cons_append, agreesWith, Bool.and_eq_true]
          have hshorter : parts.length ≤ segments.length := by simpa using hlength
          exact ⟨h.1, ih hshorter (List.prefix_append segments others) h.2⟩

theorem agreesWith_of_forall_wildcard
    (h : ∀ part ∈ parts, part = wildcard) (segments : List String) :
    agreesWith ignoreCase parts segments = true := by
  induction parts generalizing segments with
  | nil => simp [agreesWith]
  | cons part parts ih =>
      rw [List.forall_mem_cons] at h
      cases segments with
      | nil => simp [agreesWith]
      | cons segment segments => simp [agreesWith, partAgrees, h.1, ih h.2]

theorem partAgrees_of_le
    {other : Bool} (hcase : ignoreCase = true → other = true) {part segment : String}
    (h : partAgrees ignoreCase part segment = true) :
    partAgrees other part segment = true := by
  rw [partAgrees, Bool.or_eq_true] at h ⊢
  exact h.imp_right (Text.agree_of_le hcase)

theorem agreesWith_of_le
    {other : Bool} (hcase : ignoreCase = true → other = true) {segments : List String}
    (h : agreesWith ignoreCase parts segments = true) :
    agreesWith other parts segments = true := by
  induction parts generalizing segments with
  | nil => simp [agreesWith]
  | cons part parts ih =>
      cases segments with
      | nil => simp [agreesWith]
      | cons segment segments =>
          rw [agreesWith, Bool.and_eq_true] at h ⊢
          exact ⟨partAgrees_of_le hcase h.1, ih h.2⟩

end Field

namespace FieldSet

/-- A selected path is selected with all that lies on the way to it. -/
theorem selects_of_isPrefix
    {set : FieldSet} {ignoreCase : Bool} {front path : String}
    (hfront : Path.segments front <+: Path.segments path)
    (h : set.selects ignoreCase path = true) :
    set.selects ignoreCase front = true := by
  rw [selects, List.any_eq_true] at h ⊢
  obtain ⟨field, hfield, hmatches⟩ := h
  exact ⟨field, hfield, Field.agreesWith_of_isPrefix hfront hmatches⟩

theorem selects_of_mem
    {set : FieldSet} {ignoreCase : Bool} {field : Field} {path : String}
    (hfield : field ∈ set.fields) (h : field.selects ignoreCase path = true) :
    set.selects ignoreCase path = true := by
  rw [selects_eq_any, List.any_eq_true]
  exact ⟨field, hfield, h⟩

/-- More fields, or ignoring case, never select less. -/
theorem selects_of_subset
    {set larger : FieldSet} {ignoreCase other : Bool} (hfields : set.fields ⊆ larger.fields)
    (hcase : ignoreCase = true → other = true) {path : String}
    (h : set.selects ignoreCase path = true) :
    larger.selects other path = true := by
  rw [selects, List.any_eq_true] at h ⊢
  obtain ⟨field, hfield, hmatches⟩ := h
  exact ⟨field, hfields hfield, Field.agreesWith_of_le hcase hmatches⟩

end FieldSet

end FieldMask
