import FieldMask.Proofs.Paths
import FieldMask.Proofs.Prune.Survival

/-!
# The names on the way to a position

The path of a position is made of the names of the properties on the way to it; items of arrays add nothing.
All of these properties are kept when the paths of all fronts of the list of names are
(`kept_iff_forall_names`).

A name is lost from the path only at its beginning, so the path is the names with slashes between them in
every tree whose objects at the path of the root have no member with an empty name.
-/

namespace FieldMask.Json

def Step.name? : Step → Option String
  | .member name => some name
  | .item _ => none

/-- The names of the properties on the way to a position, the outermost first. -/
def names (position : Position) : List String :=
  position.filterMap Step.name?

@[simp]
theorem names_nil : names [] = [] :=
  rfl

@[simp]
theorem names_member_cons
    (name : String) (position : Position) :
    names (.member name :: position) = name :: names position :=
  rfl

@[simp]
theorem names_item_cons
    (index : Nat) (position : Position) :
    names (.item index :: position) = names position :=
  rfl

@[simp]
theorem names_append
    (position further : Position) :
    names (position ++ further) = names position ++ names further :=
  List.filterMap_append

/-- What moves up in an array keeps the names on the way to it. -/
@[simp]
theorem names_renumber
    (S : Position → Prop) (position : Position) :
    names (renumber S position) = names position := by
  induction position generalizing S with
  | nil => rfl
  | cons step position ih => cases step <;> simp [renumber, ih]

theorem pathFrom_eq_foldl
    (path : String) (position : Position) :
    pathFrom path position = (names position).foldl Path.child path := by
  induction position generalizing path with
  | nil => rfl
  | cons step position ih => cases step <;> exact ih _

@[simp]
theorem pathFrom_root
    (position : Position) :
    pathFrom Path.root position = Path.ofNames (names position) :=
  pathFrom_eq_foldl Path.root position

/-- All properties on the way are kept when the paths of all fronts of the names are. -/
theorem kept_iff_forall_names
    {keep : String → Bool} {path : String} {position : Position} :
    Kept keep path position ↔
      ∀ front, front ≠ [] → front <+: names position → keep (front.foldl Path.child path) = true := by
  induction position generalizing path with
  | nil =>
      refine iff_of_true kept_nil ?_
      intro front hfront hbefore
      exact absurd (List.prefix_nil.mp hbefore) hfront
  | cons step position ih =>
      cases step with
      | item index => rw [kept_item_cons, ih, names_item_cons]
      | member name =>
          rw [kept_member_cons, ih, names_member_cons]
          constructor
          · rintro ⟨hname, hrest⟩ front hfront hbefore
            obtain ⟨first, front, rfl⟩ := List.exists_cons_of_ne_nil hfront
            obtain ⟨rfl, hbeneath⟩ := List.cons_prefix_cons.mp hbefore
            by_cases hnil : front = []
            · subst hnil
              exact hname
            · exact hrest front hnil hbeneath
          · intro h
            refine ⟨h [name] (List.cons_ne_nil _ _) (by simp), ?_⟩
            intro front hfront hbefore
            exact h (name :: front) (List.cons_ne_nil _ _) (by simpa using hbefore)

/-! ## Empty names at the path of the root -/

/-- Whether no object at the path of the root, be it the root or reached from it through arrays only, has a
member with an empty name. -/
def NamedAtRoot (tree : Json) : Prop :=
  ∀ position members, names position = [] → tree.at? position = some (.object members) →
    "" ∉ members.map Prod.fst

theorem namedAtRoot_object_iff
    (members : List (String × Json)) :
    (Json.object members).NamedAtRoot ↔ "" ∉ members.map Prod.fst := by
  constructor
  · intro h
    exact h [] members rfl rfl
  · intro h position others hnames hat
    cases position with
    | nil =>
        obtain rfl : members = others := by simpa using hat
        exact h
    | cons step position =>
        cases step with
        | member name => simp at hnames
        | item index => simp [at?_cons, part?] at hat

theorem NamedAtRoot.of_item
    {items : List Json} (h : (Json.array items).NamedAtRoot) {index : Nat} {item : Json}
    (hitem : items[index]? = some item) :
    item.NamedAtRoot := by
  intro position members hnames hat
  apply h (.item index :: position) members hnames
  rw [at?_cons, part?, hitem]
  exact hat

/-- Then the names on the way to a position do not begin with an empty name. -/
theorem NamedAtRoot.head?_names_ne
    {tree value : Json} (h : tree.NamedAtRoot) {position : Position}
    (hat : tree.at? position = some value) :
    (names position).head? ≠ some "" := by
  induction position generalizing tree with
  | nil => simp
  | cons step position ih =>
      obtain ⟨part, hpart, hbeneath⟩ := Option.bind_eq_some_iff.mp hat
      cases tree with
      | array items =>
          cases step with
          | member name => simp [part?] at hpart
          | item index => exact ih (h.of_item hpart) hbeneath
      | object members =>
          cases step with
          | item index => simp [part?] at hpart
          | member name =>
              rw [namedAtRoot_object_iff] at h
              obtain ⟨before, after, hmembers, -⟩ := List.lookup_eq_some_iff.mp hpart
              intro hname
              obtain rfl : name = "" := by simpa using hname
              simp [hmembers] at h
      | null | bool | number | string => simp [part?] at hpart

end FieldMask.Json
