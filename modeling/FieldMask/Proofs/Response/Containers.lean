import FieldMask.Proofs.Response.Leaves

/-!
# Containers that are asked for

A field that selects a path and has no more parts than the path has segments selects everything beneath the
path.  So pruning asks about nothing in there that is not kept, and it leaves a value whole when everything
beneath its path is kept (`prune_eq_self`): no container in it loses anything, and none is dropped.  What lies
on the way to the value is kept with it, so the response has the value as it is in the resource
(`container_found_whole`).
-/

namespace FieldMask.Json

variable {keep : String → Bool} {path : String}

theorem emptied_self
    (tree : Json) :
    emptied tree tree = false := by
  simp [emptied]

theorem pruneItems_eq_self
    {items : List Json} (hitems : ∀ item ∈ items, item.prune keep path = item) :
    pruneItems keep path items = items := by
  induction items with
  | nil => rfl
  | cons item items ih =>
      rw [List.forall_mem_cons] at hitems
      simp [pruneItems, hitems.1, ih hitems.2, emptied_self]

theorem pruneMembers_eq_self
    {members : List (String × Json)}
    (hmembers : ∀ member ∈ members, keep (Path.child path member.1) = true ∧
      member.2.prune keep (Path.child path member.1) = member.2) :
    pruneMembers keep path members = members := by
  induction members with
  | nil => rfl
  | cons member members ih =>
      obtain ⟨name, value⟩ := member
      rw [List.forall_mem_cons] at hmembers
      obtain ⟨⟨hkeep, hwhole⟩, hothers⟩ := hmembers
      simp [pruneMembers, hkeep, hwhole, ih hothers, emptied_self]

/-- A value is left whole when its path has a property that all paths beneath inherit and that makes them
kept. -/
theorem prune_eq_self
    {P : String → Prop}
    (hP : ∀ path name, P path → keep (Path.child path name) = true ∧ P (Path.child path name))
    (tree : Json) (hpath : P path) :
    tree.prune keep path = tree := by
  induction tree using tree_induction generalizing path with
  | null | bool | number | string => rfl
  | array items ih =>
      rw [prune, pruneItems_eq_self fun item hitem => ih item hitem hpath]
  | object members ih =>
      rw [prune, pruneMembers_eq_self]
      intro member hmember
      obtain ⟨hkeep, hbeneath⟩ := hP path member.1 hpath
      exact ⟨hkeep, ih member hmember hbeneath⟩

/-- A value that is left whole survives with all that lies on the way to it, and is found again. -/
theorem found_whole_of_prune_eq_self
    {tree value : Json} {position : Position} (h : tree.UniqueNames)
    (hat : tree.at? position = some value) (hroot : position ≠ [])
    (hkept : Kept keep Path.root position)
    (hwhole : value.prune keep (pathFrom Path.root position) = value) :
    Survives keep tree position ∧
      (tree.filter keep).at? (renumber (Survives keep tree) position) = some value := by
  have hremains : Remains keep (pathFrom Path.root position) value [] := by
    rw [← emptied_prune_eq_false_iff (h.of_at? hat), hwhole]
    exact emptied_self value
  have hsurvives : Survives keep tree position := by
    rw [← List.append_nil position, survives_append_iff hat]
    exact ⟨by simpa using hroot, hkept, hremains⟩
  refine ⟨hsurvives, ?_⟩
  rw [at?_renumber_filter h hsurvives hat, hwhole]

end FieldMask.Json

namespace FieldMask.Field

/-- Whether a field selects a path and everything beneath it: the path uses up all parts of the field. -/
def Covers (field : Field) (ignoreCase : Bool) (path : String) : Prop :=
  field.selects ignoreCase path = true ∧ field.parts.length ≤ (Path.segments path).length

theorem Covers.child
    {field : Field} {ignoreCase : Bool} {path : String} (h : field.Covers ignoreCase path)
    (hroot : path ≠ Path.root) (name : String) :
    field.Covers ignoreCase (Path.child path name) := by
  obtain ⟨hselects, hlength⟩ := h
  have hbeneath : Path.segments path <+: Path.segments (Path.child path name) := by
    rw [Path.segments_child_of_ne_root name hroot]
    exact List.prefix_append _ _
  exact ⟨agreesWith_of_length_le hlength hbeneath hselects, hlength.trans hbeneath.length_le⟩

end FieldMask.Field

namespace FieldMask.Response

open Json

theorem prune_eq_self_of_covers
    {set : FieldSet} {ignoreCase : Bool} {field : Field} (hfield : field ∈ set.fields)
    {path : String} (hroot : path ≠ Path.root) (hcovers : field.Covers ignoreCase path)
    (value : Json) :
    value.prune (set.selects ignoreCase) path = value := by
  refine prune_eq_self (P := fun path => path ≠ Path.root ∧ field.Covers ignoreCase path) ?_ value
    ⟨hroot, hcovers⟩
  rintro path name ⟨hroot, hcovers⟩
  have hchild : field.Covers ignoreCase (Path.child path name) := hcovers.child hroot name
  exact ⟨FieldSet.selects_of_mem hfield hchild.1, Path.child_ne_root name hroot, hchild⟩

theorem select_eq_self_of_wildcards
    {set : FieldSet} {field : Field} (hfield : field ∈ set.fields)
    (hparts : ∀ part ∈ field.parts, part = Field.wildcard) (ignoreCase : Bool) (tree : Json) :
    select tree (some set) ignoreCase = tree := by
  rw [select_some]
  refine prune_eq_self (P := fun _ => True) ?_ tree trivial
  intro path name _
  have hselects : field.selects ignoreCase (Path.child path name) = true :=
    Field.agreesWith_of_forall_wildcard hparts _
  exact ⟨FieldSet.selects_of_mem hfield hselects, trivial⟩

/-- Where a field selects the path of a property, or of an item inside one, and does not reach beyond that
path, the response has the value of the resource, however much it holds, under the same names.  A field of
wildcards only asks for the whole resource, whatever the resource is. -/
theorem container_found_whole
    (set : FieldSet) (ignoreCase : Bool) (tree : Json) :
    (tree.UniqueNames → tree.NamedAtRoot →
      ∀ field ∈ set.fields, ∀ position value, names position ≠ [] →
        tree.at? position = some value →
        field.selects ignoreCase (pathFrom Path.root position) = true →
        field.parts.length ≤ (Path.segments (pathFrom Path.root position)).length →
        let place := renumber (Survives (set.selects ignoreCase) tree) position
        Survives (set.selects ignoreCase) tree position ∧ names place = names position ∧
          (select tree (some set) ignoreCase).at? place = some value) ∧
    ((∃ field ∈ set.fields, ∀ part ∈ field.parts, part = Field.wildcard) →
      select tree (some set) ignoreCase = tree) := by
  constructor
  · intro h hnamed field hfield position value hnames hat hselects hlength place
    have hhead : (names position).head? ≠ some "" := hnamed.head?_names_ne hat
    have hroot : pathFrom Path.root position ≠ Path.root := by
      rw [pathFrom_root]
      exact Path.ofNames_ne_root hnames hhead
    have hposition : position ≠ [] := by
      rintro rfl
      exact hnames rfl
    have hkept : Kept (set.selects ignoreCase) Path.root position :=
      (kept_selects_iff hhead).mpr (Or.inr (FieldSet.selects_of_mem hfield hselects))
    have hwhole := prune_eq_self_of_covers hfield hroot ⟨hselects, hlength⟩ value
    obtain ⟨hsurvives, hfound⟩ := found_whole_of_prune_eq_self h hat hposition hkept hwhole
    rw [select_some]
    exact ⟨hsurvives, names_renumber _ _, hfound⟩
  · rintro ⟨field, hfield, hparts⟩
    exact select_eq_self_of_wildcards hfield hparts ignoreCase tree

theorem container_found_whole_items :
    let set : FieldSet := .ofPaths ["A/*", "c"]
    let whole : Json := .array [.array [], .object []]
    let tree : Json := .object
      [("c", .null), ("b", .null), ("a", .array [.null, .object [("d", whole)]])]
    let position : Position := [.member "a", .item 1, .member "d"]
    tree.UniqueNames ∧ tree.NamedAtRoot ∧ tree.at? position = some whole ∧
      (select tree (some set) true).at?
        (renumber (Survives (set.selects true) tree) position) = some whole ∧
      select tree (some (.ofPaths ["b/b", "*/*"])) true = tree := by
  intro set whole tree position
  have h : tree.UniqueNames := by
    simp [tree, whole, UniqueNames, UniqueNamesItems, UniqueNamesMembers]
  have hroot : tree.NamedAtRoot := (namedAtRoot_object_iff _).mpr (by simp)
  have hfield : Field.ofString "A/*" ∈ set.fields := List.mem_cons_self
  have hfound := (container_found_whole set true tree).1 h hroot _ hfield position whole
    (List.cons_ne_nil _ _) rfl (by decide) (by decide)
  refine ⟨h, hroot, rfl, hfound.2.2, ?_⟩
  apply (container_found_whole (.ofPaths ["b/b", "*/*"]) true tree).2
  exact ⟨.ofString "*/*", List.mem_cons_of_mem _ List.mem_cons_self, by decide⟩

end FieldMask.Response
