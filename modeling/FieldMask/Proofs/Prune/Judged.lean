import FieldMask.Proofs.Prune.Names

/-!
# The properties that are judged

The questions of a pruner are about the properties whose enclosing properties are all kept
(`mem_judged_iff`), each under the path of its position (`questions_eq_map_judged`).  That path is made of
the names on the way to the property.  It is all of them with slashes between, unless the first is empty and
others follow: then nothing of it is left in the path, and the property is judged as the one that the other
names lead to.
-/

namespace FieldMask.Prune

open Json

mutual

/-- The positions of the properties in a value that are judged, in the order in which they are. -/
def judged (keep : String → Bool) (path : String) : Json → List Position
  | .array items => judgedItems keep path 0 items
  | .object members =>
    members.map (fun member => [.member member.1]) ++ judgedMembers keep path members
  | _ => []

/-- The positions of the judged properties in the items of an array from the item numbered `start` on. -/
def judgedItems (keep : String → Bool) (path : String) (start : Nat) : List Json → List Position
  | [] => []
  | item :: items =>
    (judged keep path item).map (.item start :: ·) ++ judgedItems keep path (start + 1) items

def judgedMembers (keep : String → Bool) (path : String) : List (String × Json) → List Position
  | [] => []
  | (name, value) :: members =>
    if keep (Path.child path name) then
      (judged keep (Path.child path name) value).map (.member name :: ·) ++
        judgedMembers keep path members
    else
      judgedMembers keep path members

end

variable {keep : String → Bool} {path : String}

/-! ## Each property is judged under its path -/

theorem questionsItems_eq_map_judged
    {items : List Json}
    (hitems : ∀ item ∈ items, questions keep path item =
      (judged keep path item).map (pathFrom path))
    (start : Nat) :
    questionsItems keep path items = (judgedItems keep path start items).map (pathFrom path) := by
  induction items generalizing start with
  | nil => rfl
  | cons item items ih =>
      rw [List.forall_mem_cons] at hitems
      rw [questionsItems, judgedItems, hitems.1, ih hitems.2 (start + 1), List.map_append,
        List.map_map]
      rfl

theorem questionsMembers_eq_map_judged
    {members : List (String × Json)}
    (hmembers : ∀ member ∈ members, ∀ path, questions keep path member.2 =
      (judged keep path member.2).map (pathFrom path)) :
    questionsMembers keep path members = (judgedMembers keep path members).map (pathFrom path) := by
  induction members with
  | nil => rfl
  | cons member members ih =>
      obtain ⟨name, value⟩ := member
      rw [List.forall_mem_cons] at hmembers
      rw [questionsMembers, judgedMembers, hmembers.1, ih hmembers.2]
      split
      · rw [List.map_append, List.map_map]
        rfl
      · rfl

/-- The questions about a value are about the paths of the judged properties. -/
theorem questions_eq_map_judged
    (keep : String → Bool) (path : String) (tree : Json) :
    questions keep path tree = (judged keep path tree).map (pathFrom path) := by
  induction tree using tree_induction generalizing path with
  | null | bool | number | string => rfl
  | array items ih =>
      rw [questions, judged]
      exact questionsItems_eq_map_judged (fun item hitem => ih item hitem path) 0
  | object members ih =>
      rw [questions, judged, questionsMembers_eq_map_judged ih, List.map_append, List.map_map]
      rfl

/-! ## Which properties are judged -/

/-- Whether a position is that of a property, with all properties that enclose it kept. -/
def Reached (keep : String → Bool) (path : String) (tree : Json) (position : Position) : Prop :=
  ∃ front name value, position = front ++ [.member name] ∧ tree.at? position = some value ∧
    Kept keep path front

theorem not_reached_nil
    (tree : Json) :
    ¬Reached keep path tree [] := by
  rintro ⟨front, name, value, hposition, -⟩
  simp at hposition

theorem Reached.exists_part
    {tree : Json} {step : Step} {position : Position}
    (h : Reached keep path tree (step :: position)) :
    ∃ part, tree.part? step = some part := by
  obtain ⟨front, name, value, -, hat, -⟩ := h
  obtain ⟨part, hpart, -⟩ := Option.bind_eq_some_iff.mp hat
  exact ⟨part, hpart⟩

theorem reached_item_cons
    {items : List Json} {index : Nat} {item : Json} (hitem : items[index]? = some item)
    (position : Position) :
    Reached keep path (.array items) (.item index :: position) ↔
      Reached keep path item position := by
  constructor
  · rintro ⟨front, name, value, hposition, hat, hkept⟩
    rw [at?_cons, part?, hitem] at hat
    cases front with
    | nil => simp at hposition
    | cons step front =>
        rw [List.cons_append, List.cons.injEq] at hposition
        obtain ⟨rfl, hposition⟩ := hposition
        exact ⟨front, name, value, hposition, hat, kept_item_cons.mp hkept⟩
  · rintro ⟨front, name, value, rfl, hat, hkept⟩
    refine ⟨.item index :: front, name, value, rfl, ?_, kept_item_cons.mpr hkept⟩
    rw [at?_cons, part?, hitem]
    exact hat

theorem reached_member_cons
    {members : List (String × Json)} {name : String} {value : Json}
    (hvalue : members.lookup name = some value) (position : Position) :
    Reached keep path (.object members) (.member name :: position) ↔
      position = [] ∨
        keep (Path.child path name) = true ∧ Reached keep (Path.child path name) value position := by
  constructor
  · rintro ⟨front, other, part, hposition, hat, hkept⟩
    rw [at?_cons, part?, hvalue] at hat
    cases front with
    | nil =>
        rw [List.nil_append, List.cons.injEq] at hposition
        exact Or.inl hposition.2
    | cons step front =>
        rw [List.cons_append, List.cons.injEq] at hposition
        obtain ⟨rfl, hposition⟩ := hposition
        obtain ⟨hname, hkept⟩ := kept_member_cons.mp hkept
        exact Or.inr ⟨hname, front, other, part, hposition, hat, hkept⟩
  · rintro (rfl | ⟨hname, front, other, part, rfl, hat, hkept⟩)
    · refine ⟨[], name, value, rfl, ?_, kept_nil⟩
      rw [at?_cons, part?, hvalue]
      rfl
    · refine ⟨.member name :: front, other, part, rfl, ?_, kept_member_cons.mpr ⟨hname, hkept⟩⟩
      rw [at?_cons, part?, hvalue]
      exact hat

theorem judgedItems_eq_flatMap
    (keep : String → Bool) (path : String) (start : Nat) (items : List Json) :
    judgedItems keep path start items =
      (items.zipIdx start).flatMap fun (item, index) =>
        (judged keep path item).map (.item index :: ·) := by
  induction items generalizing start with
  | nil => rfl
  | cons item items ih => rw [judgedItems, ih, List.zipIdx_cons, List.flatMap_cons]

theorem judgedMembers_eq_flatMap
    (keep : String → Bool) (path : String) (members : List (String × Json)) :
    judgedMembers keep path members =
      (members.filter fun member => keep (Path.child path member.1)).flatMap fun (name, value) =>
        (judged keep (Path.child path name) value).map (.member name :: ·) := by
  induction members with
  | nil => rfl
  | cons member members ih =>
      obtain ⟨name, value⟩ := member
      rw [judgedMembers, List.filter_cons, ih]
      split
      · rw [List.flatMap_cons]
      · rfl

/-- The judged properties are those with all enclosing properties kept. -/
theorem mem_judged_iff
    {tree : Json} (h : tree.UniqueNames) (path : String) (position : Position) :
    position ∈ judged keep path tree ↔ Reached keep path tree position := by
  induction tree using tree_induction generalizing path position with
  | null | bool | number | string =>
      refine iff_of_false (List.not_mem_nil) ?_
      intro hreached
      cases position with
      | nil => exact not_reached_nil _ hreached
      | cons step position =>
          obtain ⟨part, hpart⟩ := hreached.exists_part
          simp [part?] at hpart
  | array items ih =>
      rw [UniqueNames, uniqueNamesItems_iff] at h
      rw [judged, judgedItems_eq_flatMap, List.mem_flatMap]
      constructor
      · rintro ⟨⟨item, index⟩, hitem, hposition⟩
        obtain ⟨rest, hrest, rfl⟩ := List.mem_map.mp hposition
        have hat : items[index]? = some item := List.mem_zipIdx_iff_getElem?.mp hitem
        have hmem : item ∈ items := List.mem_of_getElem? hat
        exact (reached_item_cons hat rest).mpr ((ih item hmem (h item hmem) path rest).mp hrest)
      · intro hreached
        cases position with
        | nil => exact absurd hreached (not_reached_nil _)
        | cons step rest =>
            obtain ⟨item, hat⟩ := hreached.exists_part
            cases step with
            | member name => simp [part?] at hat
            | item index =>
                have hmem : item ∈ items := List.mem_of_getElem? hat
                have hrest := (reached_item_cons hat rest).mp hreached
                refine ⟨(item, index), List.mem_zipIdx_iff_getElem?.mpr hat, ?_⟩
                exact List.mem_map_of_mem ((ih item hmem (h item hmem) path rest).mpr hrest)
  | object members ih =>
      rw [UniqueNames, uniqueNamesMembers_iff] at h
      rw [judged, judgedMembers_eq_flatMap, List.mem_append, List.mem_map, List.mem_flatMap]
      constructor
      · rintro (⟨⟨name, value⟩, hmem, rfl⟩ | ⟨⟨name, value⟩, hmem, hposition⟩)
        · have hlookup := (lookup_eq_some_iff h.1 name value).mpr hmem
          exact (reached_member_cons hlookup []).mpr (Or.inl rfl)
        · obtain ⟨rest, hrest, rfl⟩ := List.mem_map.mp hposition
          obtain ⟨hmem, hkeep⟩ := List.mem_filter.mp hmem
          have hlookup := (lookup_eq_some_iff h.1 name value).mpr hmem
          have hbeneath := (ih (name, value) hmem (h.2 _ hmem) (Path.child path name) rest).mp hrest
          exact (reached_member_cons hlookup rest).mpr (Or.inr ⟨hkeep, hbeneath⟩)
      · intro hreached
        cases position with
        | nil => exact absurd hreached (not_reached_nil _)
        | cons step rest =>
            obtain ⟨value, hat⟩ := hreached.exists_part
            cases step with
            | item index => simp [part?] at hat
            | member name =>
                have hmem := (lookup_eq_some_iff h.1 name value).mp hat
                rcases (reached_member_cons hat rest).mp hreached with rfl | ⟨hkeep, hbeneath⟩
                · exact Or.inl ⟨(name, value), hmem, rfl⟩
                · refine Or.inr ⟨(name, value), List.mem_filter.mpr ⟨hmem, hkeep⟩, ?_⟩
                  exact List.mem_map_of_mem
                    ((ih (name, value) hmem (h.2 _ hmem) (Path.child path name) rest).mpr hbeneath)

/-! ## The paths of the judged properties -/

/-- Whether the path of a position has all names on the way to it: the first is not empty, or it is the only
one. -/
def Lossless (position : Position) : Prop :=
  (names position).head? ≠ some "" ∨ names position = [""]

theorem Reached.names_ne_nil
    {tree : Json} {position : Position} (h : Reached keep path tree position) :
    names position ≠ [] := by
  obtain ⟨front, name, value, rfl, -⟩ := h
  simp

/-- Names without slashes can be read off the path of a reached property, if nothing is lost of them. -/
theorem Reached.segments_pathFrom
    {tree : Json} {position : Position} (h : Reached keep path tree position)
    (hlossless : Lossless position) (hslash : ∀ name ∈ names position, '/' ∉ name.toList) :
    Path.segments (pathFrom Path.root position) = names position := by
  rw [pathFrom_root]
  exact Path.segments_ofNames_of_lossless h.names_ne_nil hlossless hslash

namespace Pruner

/-- A new pruner asks about the paths of the judged properties, each path once if it remembers verdicts. -/
theorem asked_apply_new
    (keep : String → Bool) (remembers : Bool) (tree : Json) :
    ((new keep remembers).apply tree).2.ledger.asked.toList =
      if remembers then ((judged keep Path.root tree).map (pathFrom Path.root)).eraseDups
      else (judged keep Path.root tree).map (pathFrom Path.root) := by
  have hremembers : (new keep remembers).ledger.remembers = remembers :=
    Ledger.remembers_empty remembers
  rw [asked_apply, hremembers, ← questions_eq_map_judged]
  rfl

/-- A pruner asks about each judged property under the path that has the names on the way to it, but for
empty ones at the front.  So where no name is lost, the path has them all with slashes between; they can be
read off it if they have no slashes themselves; and properties with different names have different paths. -/
theorem asked_under_names
    (keep : String → Bool) {tree : Json} (h : tree.UniqueNames) :
    ((new keep false).apply tree).2.ledger.asked.toList =
      (judged keep Path.root tree).map (pathFrom Path.root) ∧
    (∀ path, path ∈ ((new keep true).apply tree).2.ledger.asked ↔
      ∃ position ∈ judged keep Path.root tree, pathFrom Path.root position = path) ∧
    (∀ position, position ∈ judged keep Path.root tree ↔ Reached keep Path.root tree position) ∧
    (∀ position, pathFrom Path.root position =
      "/".intercalate ((names position).dropWhile (· = ""))) ∧
    (∀ position, pathFrom Path.root position = "/".intercalate (names position) ↔
      Lossless position) ∧
    (∀ position ∈ judged keep Path.root tree, Lossless position →
      (∀ name ∈ names position, '/' ∉ name.toList) →
      Path.segments (pathFrom Path.root position) = names position) ∧
    ∀ position ∈ judged keep Path.root tree, ∀ other ∈ judged keep Path.root tree,
      Lossless position → Lossless other →
      (∀ name ∈ names position ++ names other, '/' ∉ name.toList) →
      pathFrom Path.root position = pathFrom Path.root other → names position = names other := by
  refine ⟨?_, ?_, mem_judged_iff h Path.root, ?_, ?_, ?_, ?_⟩
  · simpa using asked_apply_new keep false tree
  · intro path
    rw [← Array.mem_toList_iff, asked_apply_new]
    simp
  · intro position
    rw [pathFrom_root]
    exact Path.ofNames_eq_intercalate (names position)
  · intro position
    rw [pathFrom_root]
    exact Path.ofNames_eq_intercalate_iff (names position)
  · intro position hjudged hlossless hslash
    exact ((mem_judged_iff h _ _).mp hjudged).segments_pathFrom hlossless hslash
  · intro position hposition other hother hlossless hlossless' hslash hpath
    rw [List.forall_mem_append] at hslash
    rw [← ((mem_judged_iff h _ _).mp hposition).segments_pathFrom hlossless hslash.1, hpath,
      ((mem_judged_iff h _ _).mp hother).segments_pathFrom hlossless' hslash.2]

theorem asked_under_names_items :
    let tree : Json := .object [("a", .array [.object [("", .null)]]), ("", .null)]
    tree.UniqueNames ∧
      (judged (fun _ => true) Path.root tree).map names = [["a"], [""], ["a", ""]] ∧
      ((new (fun _ => true) false).apply tree).2.ledger.asked.toList = ["a", "", "a/"] := by
  intro tree
  have h : tree.UniqueNames := by
    simp [tree, UniqueNames, UniqueNamesItems, UniqueNamesMembers]
  refine ⟨h, rfl, ?_⟩
  rw [(asked_under_names (fun _ => true) h).1]
  rfl

/-- An empty name at the front is lost: both properties named `a` are judged under one path, and the
predicate is never asked about `/a`. -/
theorem asked_without_empty_name :
    let tree : Json := .object [("", .object [("a", .null)]), ("a", .null)]
    (judged (· != "/a") Path.root tree).map names = [[""], ["a"], ["", "a"]] ∧
      (judged (· != "/a") Path.root tree).map (fun position => "/".intercalate (names position)) =
        ["", "a", "/a"] ∧
      ((new (· != "/a") false).apply tree).2.ledger.asked.toList = ["", "a", "a"] ∧
      ((new (· != "/a") false).apply tree).1 = tree := by
  refine ⟨rfl, rfl, rfl, rfl⟩

end Pruner

end FieldMask.Prune
