import FieldMask.Proofs.Matching
import FieldMask.Proofs.Prune.Names

/-!
# The leaves of a response

Pruning asks about all properties on the way to a leaf.  A set of fields that selects a path selects all
paths on the way to it, so for a set of fields one question is enough: a leaf is in the response when the
path of the last property on the way to it is selected (`leaf_found_iff_selected`).

This fails where a name is lost from the path.  An empty name in an object at the path of the root has the
path of the root, so the leaves beneath it have paths that do not begin with the path of that property.
-/

namespace FieldMask.Json

variable {keep : String → Bool} {tree : Json} {position : Position}

/-- What is found again in a pruned tree is found with all that lies on the way to it. -/
theorem survives_front
    (h : position = [] ∨ Survives keep tree position) {front : Position} (hfront : front ≠ [])
    (hbefore : front <+: position) :
    Survives keep tree front := by
  rcases h with rfl | hsurvives
  · exact absurd (List.prefix_nil.mp hbefore) hfront
  · exact hsurvives.of_prefix hfront hbefore

/-- A leaf is found again in a pruned tree when all properties on the way to it are kept. -/
theorem found_leaf_iff_kept
    {leaf : Json} (hat : tree.at? position = some leaf) (hleaf : leaf.hasParts = false) :
    FoundAgain (Survives keep tree) tree position ↔ Kept keep Path.root position := by
  constructor
  · rintro ⟨rfl | hsurvives, -⟩
    · exact kept_nil
    · rcases hsurvives with ⟨-, -, -, hkept⟩ | ⟨-, hvalue, hparts, -, -⟩
      · exact hkept
      · rw [hat, Option.some.injEq] at hvalue
        rw [hvalue, hparts] at hleaf
        cases hleaf
  · intro hkept
    have hstays : position = [] ∨ Survives keep tree position :=
      or_iff_not_imp_left.mpr fun hroot => .leaf hroot hat hleaf hkept
    refine ⟨hstays, ?_⟩
    rw [at?_renumber_restrict (fun _ => survives_front hstays) hat,
      restrict_of_hasParts_eq_false hleaf, hat]

/-- For a set of fields, all properties on the way to a position are kept when the last one is. -/
theorem kept_selects_iff
    {set : FieldSet} {ignoreCase : Bool} (hhead : (names position).head? ≠ some "") :
    Kept (set.selects ignoreCase) Path.root position ↔
      names position = [] ∨ set.selects ignoreCase (pathFrom Path.root position) = true := by
  rw [kept_iff_forall_names, pathFrom_root]
  constructor
  · intro h
    by_cases hnil : names position = []
    · exact Or.inl hnil
    · exact Or.inr (h (names position) hnil (List.prefix_refl _))
  · rintro (hnil | hselected) front hfront hbefore
    · rw [hnil, List.prefix_nil] at hbefore
      exact absurd hbefore hfront
    · exact FieldSet.selects_of_isPrefix (Path.segments_ofNames_isPrefix hfront hhead hbefore) hselected

end FieldMask.Json

namespace FieldMask.Response

open Json

/-- A response is the resource without what does not survive.  A leaf of the resource is found in it exactly
when no property encloses the leaf or the path of the innermost one is selected, whatever else is dropped.
That path has all names on the way to the leaf, and different leaves are found at different places. -/
theorem leaf_found_iff_selected
    (set : FieldSet) (ignoreCase : Bool) {tree : Json} (h : tree.UniqueNames)
    (hroot : tree.NamedAtRoot) :
    select tree (some set) ignoreCase = tree.restrict (Survives (set.selects ignoreCase) tree) ∧
    (∀ position leaf, tree.at? position = some leaf → leaf.hasParts = false →
      (FoundAgain (Survives (set.selects ignoreCase) tree) tree position ↔
        names position = [] ∨ set.selects ignoreCase (pathFrom Path.root position) = true)) ∧
    (∀ position value, tree.at? position = some value →
      pathFrom Path.root position = "/".intercalate (names position)) ∧
    ∀ position other,
      FoundAgain (Survives (set.selects ignoreCase) tree) tree position →
      FoundAgain (Survives (set.selects ignoreCase) tree) tree other →
      renumber (Survives (set.selects ignoreCase) tree) position =
        renumber (Survives (set.selects ignoreCase) tree) other →
      position = other := by
  refine ⟨(select_some tree set ignoreCase).trans (filter_eq_restrict h _), ?_, ?_, ?_⟩
  · intro position leaf hat hleaf
    rw [found_leaf_iff_kept hat hleaf, kept_selects_iff (hroot.head?_names_ne hat)]
  · intro position value hat
    rw [pathFrom_root]
    exact Path.ofNames_eq_intercalate_of_head?_ne (hroot.head?_names_ne hat)
  · rintro position other ⟨hposition, -⟩ ⟨hother, -⟩
    exact renumber_injective (fun _ => survives_front hposition) (fun _ => survives_front hother)

theorem leaf_found_iff_selected_items :
    let set : FieldSet := .ofPaths ["a/b", "*/c"]
    let tree : Json := .object
      [("a", .array [.object [("b", .array []), ("d", .null)], .null]), ("e/c", .object [("d", .null)])]
    let kept := Survives (set.selects false) tree
    tree.UniqueNames ∧ tree.NamedAtRoot ∧
      FoundAgain kept tree [.member "a", .item 0, .member "b"] ∧
      ¬FoundAgain kept tree [.member "a", .item 0, .member "d"] ∧
      FoundAgain kept tree [.member "a", .item 1] ∧
      FoundAgain kept tree [.member "e/c", .member "d"] := by
  intro set tree kept
  have h : tree.UniqueNames := by
    simp [tree, UniqueNames, UniqueNamesItems, UniqueNamesMembers]
  have hroot : tree.NamedAtRoot := (namedAtRoot_object_iff _).mpr (by simp)
  have hleaf := (leaf_found_iff_selected set false h hroot).2.1
  refine ⟨h, hroot, ?_, ?_, ?_, ?_⟩
  · exact (hleaf _ (.array []) rfl rfl).mpr (Or.inr rfl)
  · rw [hleaf _ .null rfl rfl]
    decide
  · exact (hleaf _ .null rfl rfl).mpr (Or.inr rfl)
  · exact (hleaf _ .null rfl rfl).mpr (Or.inr rfl)

end FieldMask.Response
