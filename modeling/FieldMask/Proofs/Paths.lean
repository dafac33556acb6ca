import FieldMask.Path

/-!
# Paths and names

Going down to a name adds the segments of the name to those of the path, unless the path is empty.  So the
path that is built up from names is the names with slashes between them (`ofNames_eq_intercalate`), and its
segments are the names when these have no slashes, as long as it does not begin with an empty name: that
one is lost.
-/

namespace FieldMask.Path

theorem segments_child_of_ne_root
    {path : String} (name : String) (h : path ≠ root) :
    segments (child path name) = segments path ++ segments name := by
  rw [child_of_ne_root name h]
  simp [segments, List.splitOn_append_cons_self]

theorem child_ne_root
    {path : String} (name : String) (h : path ≠ root) :
    child path name ≠ root := by
  intro hempty
  rw [child_of_ne_root name h] at hempty
  have hlist := congrArg String.toList hempty
  simp [root] at hlist

/-! ## Going down through several names -/

theorem foldl_child_ne_root
    {path : String} (h : path ≠ root) (names : List String) :
    names.foldl child path ≠ root := by
  induction names generalizing path with
  | nil => exact h
  | cons name names ih => exact ih (child_ne_root name h)

theorem segments_foldl_child
    {path : String} (h : path ≠ root) (names : List String) :
    segments (names.foldl child path) = segments path ++ names.flatMap segments := by
  induction names generalizing path with
  | nil => simp
  | cons name names ih =>
      rw [List.foldl_cons, ih (child_ne_root name h), segments_child_of_ne_root name h,
        List.flatMap_cons, List.append_assoc]

theorem foldl_child_eq_intercalate
    {path : String} (h : path ≠ root) (names : List String) :
    names.foldl child path = "/".intercalate (path :: names) := by
  induction names generalizing path with
  | nil => simp
  | cons name names ih =>
      rw [List.foldl_cons, ih (child_ne_root name h), child_of_ne_root name h,
        String.intercalate_cons_append, String.intercalate_cons_cons]

/-! ## The path of a list of names -/

/-- The path of what is reached from the root through these names. -/
def ofNames (names : List String) : String :=
  names.foldl child root

@[simp]
theorem ofNames_nil : ofNames [] = root :=
  rfl

@[simp]
theorem ofNames_append_singleton
    (names : List String) (name : String) :
    ofNames (names ++ [name]) = child (ofNames names) name := by
  simp [ofNames]

theorem ofNames_cons
    (name : String) (names : List String) :
    ofNames (name :: names) = names.foldl child name := by
  rw [ofNames, List.foldl_cons, child_root]

@[simp]
theorem ofNames_empty_cons
    (names : List String) :
    ofNames ("" :: names) = ofNames names :=
  ofNames_cons "" names

/-- Names are joined by slashes, but for empty ones at the front, which are lost. -/
theorem ofNames_eq_intercalate
    (names : List String) :
    ofNames names = "/".intercalate (names.dropWhile (· = "")) := by
  induction names with
  | nil => rfl
  | cons name names ih =>
      by_cases hname : name = ""
      · subst hname
        simpa using ih
      · rw [ofNames_cons, foldl_child_eq_intercalate hname]
        simp [hname]

theorem ofNames_eq_intercalate_of_head?_ne
    {names : List String} (h : names.head? ≠ some "") :
    ofNames names = "/".intercalate names := by
  rw [ofNames_eq_intercalate]
  cases names with
  | nil => rfl
  | cons name names =>
      have hname : name ≠ "" := by simpa using h
      simp [hname]

theorem length_ofNames_le
    (names : List String) :
    (ofNames names).length ≤ ("/".intercalate names).length := by
  induction names with
  | nil => simp [root]
  | cons name names ih =>
      by_cases hname : name = ""
      · subst hname
        rw [ofNames_empty_cons]
        cases names with
        | nil => simpa using ih
        | cons next names =>
            rw [String.intercalate_cons_cons, String.length_append, String.length_append]
            omega
      · have hhead : (name :: names).head? ≠ some "" := by simpa using hname
        exact Nat.le_of_eq (congrArg String.length (ofNames_eq_intercalate_of_head?_ne hhead))

/-- Nothing is lost of names exactly when the first is not empty or the only one. -/
theorem ofNames_eq_intercalate_iff
    (names : List String) :
    ofNames names = "/".intercalate names ↔ names.head? ≠ some "" ∨ names = [""] := by
  constructor
  · intro hjoined
    by_cases hhead : names.head? = some ""
    · obtain ⟨others, rfl⟩ : ∃ others, names = "" :: others := by
        cases names <;> simp_all
      right
      cases others with
      | nil => rfl
      | cons next others =>
          have hshort := length_ofNames_le (next :: others)
          rw [ofNames_empty_cons] at hjoined
          rw [hjoined, String.intercalate_cons_cons, String.length_append, String.length_append]
            at hshort
          have hslash : "/".length = 1 := rfl
          omega
    · exact Or.inl hhead
  · rintro (hhead | rfl)
    · exact ofNames_eq_intercalate_of_head?_ne hhead
    · rfl

example : ofNames ["a", "", "b"] = "a//b" ∧ ofNames ["", "", "b"] = "b" :=
  ⟨rfl, rfl⟩

theorem ofNames_ne_root
    {names : List String} (hne : names ≠ []) (hhead : names.head? ≠ some "") :
    ofNames names ≠ root := by
  obtain ⟨first, others, rfl⟩ := List.exists_cons_of_ne_nil hne
  have hfirst : first ≠ "" := by simpa using hhead
  rw [ofNames_cons]
  exact foldl_child_ne_root hfirst others

/-- The segments of a path begin with those of the paths on the way to it. -/
theorem segments_ofNames_isPrefix
    {front names : List String} (hfront : front ≠ []) (hhead : names.head? ≠ some "")
    (h : front <+: names) :
    segments (ofNames front) <+: segments (ofNames names) := by
  obtain ⟨others, rfl⟩ := h
  obtain ⟨first, front, rfl⟩ := List.exists_cons_of_ne_nil hfront
  have hfirst : first ≠ "" := by simpa using hhead
  rw [List.cons_append, ofNames_cons, ofNames_cons, segments_foldl_child hfirst,
    segments_foldl_child hfirst, List.flatMap_append, ← List.append_assoc]
  exact List.prefix_append _ _

/-- Names without slashes are the segments of the path that they lead to, if nothing is lost of them. -/
theorem segments_ofNames_of_lossless
    {names : List String} (hne : names ≠ []) (h : names.head? ≠ some "" ∨ names = [""])
    (hslash : ∀ name ∈ names, '/' ∉ name.toList) :
    segments (ofNames names) = names := by
  rw [(ofNames_eq_intercalate_iff names).mpr h, segments_intercalate hne hslash]

/-- Names without slashes are the segments of the path that they lead to, unless one of them is empty. -/
theorem segments_ofNames
    {names : List String} (hne : names ≠ [])
    (h : ∀ name ∈ names, name ≠ "" ∧ '/' ∉ name.toList) :
    ofNames names ≠ root ∧ segments (ofNames names) = names := by
  have hhead : names.head? ≠ some "" := by
    obtain ⟨first, others, rfl⟩ := List.exists_cons_of_ne_nil hne
    simpa using (h first List.mem_cons_self).1
  exact ⟨ofNames_ne_root hne hhead,
    segments_ofNames_of_lossless hne (Or.inl hhead) fun name hname => (h name hname).2⟩

end FieldMask.Path
