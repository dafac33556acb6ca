/-!
# Paths

A path is a text whose slashes separate its segments.  The root has the empty path; the path of anything
else is made of the names on the way to it.  Names may contain slashes themselves, and then they give
several segments.

Cutting a path into segments and joining segments are inverse to each other, as long as there is at least
one segment and none has a slash (`intercalate_segments`, `segments_intercalate`).
-/

namespace FieldMask.Path

def root : String := ""

def child (path name : String) : String :=
  if path = root then name else path ++ "/" ++ name

@[simp]
theorem child_root
    (name : String) :
    child root name = name := by
  simp [child]

theorem child_of_ne_root
    {path : String} (name : String) (h : path ≠ root) :
    child path name = path ++ "/" ++ name := by
  simp [child, h]

def segments (path : String) : List String :=
  (path.toList.splitOn '/').map String.ofList

theorem segments_ne_nil
    (path : String) :
    segments path ≠ [] := by
  simp [segments]

theorem notMem_of_mem_splitOn
    {c : Char} {text part : List Char} (h : part ∈ text.splitOn c) :
    c ∉ part := by
  induction text generalizing part with
  | nil =>
    have hpart : part = [] := by simpa using h
    simp [hpart]
  | cons d rest ih =>
    rw [List.splitOn_cons_eq_if_modifyHead] at h
    split at h
    · rcases List.mem_cons.1 h with rfl | h
      · simp
      · exact ih h
    · rename_i hd
      obtain ⟨first, others, hsplit⟩ := List.exists_cons_of_ne_nil (List.splitOn_ne_nil c rest)
      rw [hsplit] at h ih
      rcases List.mem_cons.1 h with rfl | h
      · have hfirst := ih List.mem_cons_self
        have hdc : c ≠ d := fun e => hd (by simp [e])
        simp [hfirst, hdc]
      · exact ih (List.mem_cons_of_mem _ h)

/-- No segment has a slash. -/
theorem slash_notMem_of_mem_segments
    {path segment : String} (h : segment ∈ segments path) :
    '/' ∉ segment.toList := by
  obtain ⟨part, hpart, rfl⟩ := List.mem_map.1 h
  rw [String.toList_ofList]
  exact notMem_of_mem_splitOn hpart

/-- Cutting a path loses nothing. -/
@[simp]
theorem intercalate_segments
    (path : String) :
    "/".intercalate (segments path) = path := by
  apply String.toList_injective
  simp [segments, String.toList_intercalate, Function.comp_def, List.intercalate_splitOn]

/-- Joining segments loses nothing. -/
theorem segments_intercalate
    {parts : List String} (hne : parts ≠ []) (hslash : ∀ part ∈ parts, '/' ∉ part.toList) :
    segments ("/".intercalate parts) = parts := by
  have hsplit : (['/'].intercalate (parts.map String.toList)).splitOn '/' =
      parts.map String.toList := by
    apply List.splitOn_intercalate
    · intro text htext
      obtain ⟨part, hpart, rfl⟩ := List.mem_map.1 htext
      exact hslash part hpart
    · simpa using hne
  have hjoin : ("/".intercalate parts).toList = ['/'].intercalate (parts.map String.toList) := by
    simp [String.toList_intercalate]
  rw [segments, hjoin, hsplit]
  simp [Function.comp_def]

end FieldMask.Path
