import FieldMask.Json.Value
import Mathlib.Data.Nat.Count

/-!
# Positions in a tree

A position is the way from the root of a tree to a value in it: the names of the members and the numbers
of the items that are gone through.

A set of positions restricts a tree: everything at other positions goes, together with all that is beneath
it, and the root stays.  The items that stay move up, so positions in the restricted tree are numbered
anew (`renumber`).  Every value at a position in the set is found again there, restricted
(`at?_renumber_restrict`), and nothing else is found (`exists_origin_of_at?_restrict`).  Different positions
in the set lead to different places (`renumber_injective`).
-/

namespace FieldMask.Json

/-- Induction over a tree, from the parts of a container to the container. -/
@[elab_as_elim]
theorem tree_induction
    {motive : Json → Prop}
    (null : motive .null)
    (bool : ∀ value, motive (.bool value))
    (number : ∀ value, motive (.number value))
    (string : ∀ value, motive (.string value))
    (array : ∀ items, (∀ item ∈ items, motive item) → motive (.array items))
    (object : ∀ members : List (String × Json), (∀ member ∈ members, motive member.2) →
      motive (.object members))
    (tree : Json) :
    motive tree := by
  refine @Json.rec motive (fun items => ∀ item ∈ items, motive item)
    (fun members => ∀ member ∈ members, motive member.2) (fun member => motive member.2)
    null bool number string array object ?_ ?_ ?_ ?_ ?_ tree
  · simp
  · intro item items hitem hitems
    exact List.forall_mem_cons.mpr ⟨hitem, hitems⟩
  · simp
  · intro member members hmember hmembers
    exact List.forall_mem_cons.mpr ⟨hmember, hmembers⟩
  · intro name value hvalue
    exact hvalue

/-! ## Values at positions -/

/-- A step from a container to one of its parts. -/
inductive Step where
  | member (name : String)
  | item (index : Nat)
  deriving DecidableEq, Repr

abbrev Position :=
  List Step

def part? : Json → Step → Option Json
  | .array items, .item index => items[index]?
  | .object members, .member name => members.lookup name
  | _, _ => none

def at? (tree : Json) : Position → Option Json
  | [] => some tree
  | step :: position => (tree.part? step).bind fun value => value.at? position

def hasParts : Json → Bool
  | .array items => !items.isEmpty
  | .object members => !members.isEmpty
  | _ => false

mutual

/-- Whether no object in a tree has two members of one name. -/
def UniqueNames : Json → Prop
  | .array items => UniqueNamesItems items
  | .object members => (members.map Prod.fst).Nodup ∧ UniqueNamesMembers members
  | _ => True

def UniqueNamesItems : List Json → Prop
  | [] => True
  | item :: items => item.UniqueNames ∧ UniqueNamesItems items

def UniqueNamesMembers : List (String × Json) → Prop
  | [] => True
  | (_, value) :: members => value.UniqueNames ∧ UniqueNamesMembers members

end

@[simp]
theorem at?_nil
    (tree : Json) :
    tree.at? [] = some tree :=
  rfl

theorem at?_cons
    (tree : Json) (step : Step) (position : Position) :
    tree.at? (step :: position) = (tree.part? step).bind (·.at? position) :=
  rfl

theorem at?_append
    (tree : Json) (position further : Position) :
    tree.at? (position ++ further) = (tree.at? position).bind (·.at? further) := by
  induction position generalizing tree with
  | nil => rfl
  | cons step position ih => simp [at?_cons, Option.bind_assoc, ih]

theorem part?_eq_none
    {tree : Json} (h : tree.hasParts = false) (step : Step) :
    tree.part? step = none := by
  cases tree <;> cases step <;> simp_all [hasParts, part?]

/-- A container that holds nothing is empty. -/
theorem hasParts_eq_false_of_isEmptyContainer
    {tree : Json} (h : tree.isEmptyContainer = true) :
    tree.hasParts = false := by
  cases tree <;> simp_all [hasParts, isEmptyContainer]

theorem uniqueNamesItems_iff
    (items : List Json) :
    UniqueNamesItems items ↔ ∀ item ∈ items, item.UniqueNames := by
  induction items with
  | nil => simp [UniqueNamesItems]
  | cons item items ih => rw [UniqueNamesItems, ih, List.forall_mem_cons]

theorem uniqueNamesMembers_iff
    (members : List (String × Json)) :
    UniqueNamesMembers members ↔ ∀ member ∈ members, member.2.UniqueNames := by
  induction members with
  | nil => simp [UniqueNamesMembers]
  | cons member members ih => rw [UniqueNamesMembers, ih, List.forall_mem_cons]

/-- Where names are unique, a name finds each of the members. -/
theorem lookup_eq_some_iff
    {members : List (String × Json)} (h : (members.map Prod.fst).Nodup) (name : String)
    (value : Json) :
    members.lookup name = some value ↔ (name, value) ∈ members := by
  induction members with
  | nil => simp
  | cons member members ih =>
      obtain ⟨first, firstValue⟩ := member
      rw [List.map_cons, List.nodup_cons] at h
      by_cases hname : name = first
      · subst hname
        have hnone : (name, value) ∉ members := fun hmem =>
          h.1 (List.mem_map.mpr ⟨_, hmem, rfl⟩)
        simp [hnone, eq_comm]
      · have hne : (name == first) = false := by simpa using hname
        simp [List.lookup_cons, hne, hname, ih h.2]

theorem UniqueNames.of_part?
    {tree part : Json} {step : Step} (h : tree.UniqueNames) (hpart : tree.part? step = some part) :
    part.UniqueNames := by
  cases tree with
  | array items =>
      cases step with
      | member name => simp [part?] at hpart
      | item index =>
          rw [UniqueNames, uniqueNamesItems_iff] at h
          exact h part (List.mem_of_getElem? hpart)
  | object members =>
      cases step with
      | item index => simp [part?] at hpart
      | member name =>
          rw [UniqueNames, uniqueNamesMembers_iff] at h
          exact h.2 (name, part) ((lookup_eq_some_iff h.1 name part).mp hpart)
  | null | bool | number | string => simp [part?] at hpart

theorem UniqueNames.of_at?
    {tree value : Json} {position : Position} (h : tree.UniqueNames)
    (hat : tree.at? position = some value) :
    value.UniqueNames := by
  induction position generalizing tree with
  | nil =>
      obtain rfl : tree = value := by simpa using hat
      exact h
  | cons step position ih =>
      obtain ⟨part, hpart, hbeneath⟩ := Option.bind_eq_some_iff.mp hat
      exact ih (h.of_part? hpart) hbeneath

/-! ## Restricted trees -/

open Classical in
mutual

/-- The values of a tree at the positions in `S`, and the root. -/
noncomputable def restrict (S : Position → Prop) : Json → Json
  | .array items => .array (restrictItems (fun index position => S (.item index :: position)) items)
  | .object members =>
    .object (restrictMembers (fun name position => S (.member name :: position)) members)
  | .null => .null
  | .bool value => .bool value
  | .number value => .number value
  | .string value => .string value

/-- The items of an array, each restricted to its own positions, without those whose root goes. -/
noncomputable def restrictItems (S : Nat → Position → Prop) : List Json → List Json
  | [] => []
  | item :: items =>
    if S 0 [] then
      item.restrict (S 0) :: restrictItems (fun index => S (index + 1)) items
    else
      restrictItems (fun index => S (index + 1)) items

/-- The members of an object, each restricted to its own positions, without those whose root goes. -/
noncomputable def restrictMembers (S : String → Position → Prop) :
    List (String × Json) → List (String × Json)
  | [] => []
  | (name, value) :: members =>
    if S name [] then
      (name, value.restrict (S name)) :: restrictMembers S members
    else
      restrictMembers S members

end

open Classical in
/-- Where the value at a position in `S` is found in the restricted tree: items move up by the number of
items in front of them that go. -/
noncomputable def renumber (S : Position → Prop) : Position → Position
  | [] => []
  | .member name :: position =>
    .member name :: renumber (fun position => S (.member name :: position)) position
  | .item index :: position =>
    .item (Nat.count (fun index => S [.item index]) index) ::
      renumber (fun position => S (.item index :: position)) position

/-- Only non-root positions matter. -/
theorem restrict_congr
    {S T : Position → Prop} (h : ∀ position, position ≠ [] → (S position ↔ T position))
    (tree : Json) :
    tree.restrict S = tree.restrict T := by
  have hstep (step : Step) (position : Position) :
      S (step :: position) = T (step :: position) :=
    propext (h _ (List.cons_ne_nil step position))
  cases tree with
  | array items => simp only [restrict, hstep]
  | object members => simp only [restrict, hstep]
  | null | bool | number | string => rfl

theorem restrict_of_hasParts_eq_false
    {tree : Json} (h : tree.hasParts = false) (S : Position → Prop) :
    tree.restrict S = tree := by
  cases tree <;> simp_all [hasParts, restrict, restrictItems, restrictMembers]

open Classical in
theorem getElem?_restrictItems_count
    {S : Nat → Position → Prop} {items : List Json} {index : Nat} {item : Json}
    (hitem : items[index]? = some item) (hS : S index []) :
    (restrictItems S items)[Nat.count (fun index => S index []) index]? =
      some (item.restrict (S index)) := by
  induction items generalizing S index with
  | nil => simp at hitem
  | cons first items ih =>
      cases index with
      | zero =>
          obtain rfl : first = item := by simpa using hitem
          simp [restrictItems, hS]
      | succ index =>
          have hrest := ih (S := fun index => S (index + 1)) (by simpa using hitem) hS
          rw [Nat.count_succ', restrictItems]
          split
          · simpa using hrest
          · simpa using hrest

open Classical in
theorem exists_of_getElem?_restrictItems
    {S : Nat → Position → Prop} {items : List Json} {place : Nat} {value : Json}
    (h : (restrictItems S items)[place]? = some value) :
    ∃ index item, items[index]? = some item ∧ S index [] ∧
      Nat.count (fun index => S index []) index = place ∧ value = item.restrict (S index) := by
  induction items generalizing S place with
  | nil => simp [restrictItems] at h
  | cons first items ih =>
      rw [restrictItems] at h
      split at h
      next hfirst =>
        cases place with
        | zero =>
            refine ⟨0, first, rfl, hfirst, Nat.count_zero _, ?_⟩
            simpa [eq_comm] using h
        | succ place =>
            obtain ⟨index, item, hitem, hS, hcount, hvalue⟩ := ih (by simpa using h)
            refine ⟨index + 1, item, by simpa using hitem, hS, ?_, hvalue⟩
            rw [Nat.count_succ', hcount, if_pos hfirst]
      next hfirst =>
        obtain ⟨index, item, hitem, hS, hcount, hvalue⟩ := ih h
        refine ⟨index + 1, item, by simpa using hitem, hS, ?_, hvalue⟩
        rw [Nat.count_succ', hcount, if_neg hfirst, Nat.add_zero]

open Classical in
theorem lookup_restrictMembers
    (S : String → Position → Prop) (members : List (String × Json)) (name : String) :
    (restrictMembers S members).lookup name =
      if S name [] then (members.lookup name).map (restrict (S name)) else none := by
  induction members with
  | nil => simp [restrictMembers]
  | cons member members ih =>
      obtain ⟨first, value⟩ := member
      rw [restrictMembers]
      by_cases hname : name = first
      · subst hname
        split
        next hS => simp
        next hS => rw [ih, if_neg hS]
      · have hne : (name == first) = false := by simpa using hname
        split
        · simp [List.lookup_cons, hne, ih]
        · simp [List.lookup_cons, hne, ih]

/-! ## Positions in restricted trees -/

open Classical in
theorem part?_restrict_member
    (S : Position → Prop) (tree : Json) (name : String) :
    (tree.restrict S).part? (.member name) =
      if S [.member name] then
        (tree.part? (.member name)).map (restrict fun position => S (.member name :: position))
      else none := by
  cases tree with
  | object members => exact lookup_restrictMembers _ members name
  | array | null | bool | number | string => simp [restrict, part?]

/-- Everything at a position in the set is found again. -/
theorem at?_renumber_restrict
    {S : Position → Prop} {tree value : Json} {position : Position}
    (hS : ∀ front, front ≠ [] → front <+: position → S front)
    (hat : tree.at? position = some value) :
    (tree.restrict S).at? (renumber S position) =
      some (value.restrict fun further => S (position ++ further)) := by
  induction position generalizing tree S with
  | nil =>
      obtain rfl : tree = value := by simpa using hat
      rfl
  | cons step position ih =>
      have hstep : S [step] := hS [step] (by simp) (by simp)
      have hbeneath (front : Position) (hfront : front <+: position) : S (step :: front) :=
        hS _ (List.cons_ne_nil _ _) (by simpa using hfront)
      obtain ⟨part, hpart, hat⟩ := Option.bind_eq_some_iff.mp hat
      have hfound := ih (S := fun further => S (step :: further)) (fun front _ => hbeneath front) hat
      cases step with
      | member name =>
          rw [renumber, at?_cons, part?_restrict_member, if_pos hstep, hpart]
          exact hfound
      | item index =>
          cases tree with
          | array items =>
              have hitem := getElem?_restrictItems_count
                (S := fun index position => S (.item index :: position)) hpart hstep
              rw [renumber, at?_cons, restrict, part?, hitem]
              exact hfound
          | object | null | bool | number | string => simp [part?] at hpart

/-- Nothing is found that was not there. -/
theorem exists_origin_of_at?_restrict
    {S : Position → Prop} {tree value : Json} {position : Position}
    (hat : (tree.restrict S).at? position = some value) :
    ∃ origin old, renumber S origin = position ∧ (origin ≠ [] → S origin) ∧
      tree.at? origin = some old ∧ value = old.restrict fun further => S (origin ++ further) := by
  induction position generalizing tree S with
  | nil =>
      obtain rfl : tree.restrict S = value := by simpa using hat
      refine ⟨[], tree, rfl, ?_, rfl, rfl⟩
      intro hne
      exact absurd rfl hne
  | cons step position ih =>
      obtain ⟨part, hpart, hat⟩ := Option.bind_eq_some_iff.mp hat
      have hbelow (first : Step) (origin : Position) (hfirst : S [first])
          (h : origin ≠ [] → S (first :: origin)) :
          S (first :: origin) := by
        by_cases hnil : origin = []
        · rwa [hnil]
        · exact h hnil
      cases step with
      | member name =>
          rw [part?_restrict_member] at hpart
          split at hpart
          next hstep =>
            obtain ⟨old, hold, rfl⟩ := Option.map_eq_some_iff.mp hpart
            obtain ⟨origin, inner, hrenumber, hS, horigin, hvalue⟩ := ih hat
            refine ⟨.member name :: origin, inner, ?_, fun _ => hbelow _ _ hstep hS, ?_, hvalue⟩
            · rw [renumber, hrenumber]
            · rw [at?_cons, hold]
              exact horigin
          next hstep => cases hpart
      | item place =>
          cases tree with
          | array items =>
              obtain ⟨index, item, hitem, hstep, hcount, rfl⟩ :=
                exists_of_getElem?_restrictItems hpart
              obtain ⟨origin, inner, hrenumber, hS, horigin, hvalue⟩ := ih hat
              refine ⟨.item index :: origin, inner, ?_, fun _ => hbelow _ _ hstep hS, ?_, hvalue⟩
              · rw [renumber, hrenumber, hcount]
              · rw [at?_cons, part?, hitem]
                exact horigin
          | object | null | bool | number | string => simp [restrict, part?] at hpart

open Classical in
/-- Different positions in the set lead to different places in the restricted tree. -/
theorem renumber_injective
    {S : Position → Prop} {position other : Position}
    (hS : ∀ front, front ≠ [] → front <+: position → S front)
    (hother : ∀ front, front ≠ [] → front <+: other → S front)
    (h : renumber S position = renumber S other) :
    position = other := by
  induction position generalizing S other with
  | nil =>
      cases other with
      | nil => rfl
      | cons step other => cases step <;> simp [renumber] at h
  | cons step position ih =>
      cases other with
      | nil => cases step <;> simp [renumber] at h
      | cons first other =>
          have hstep : S [step] := hS [step] (by simp) (by simp)
          have hfirst : S [first] := hother [first] (by simp) (by simp)
          have hparts : step = first ∧ renumber (fun further => S (step :: further)) position =
              renumber (fun further => S (first :: further)) other := by
            cases step with
            | member name =>
                cases first with
                | member next =>
                    simp only [renumber, List.cons.injEq] at h
                    exact h
                | item place => simp [renumber] at h
            | item index =>
                cases first with
                | member next => simp [renumber] at h
                | item place =>
                    simp only [renumber, List.cons.injEq, Step.item.injEq] at h
                    exact ⟨congrArg Step.item (Nat.count_injective hstep hfirst h.1), h.2⟩
          obtain ⟨rfl, hbeneath⟩ := hparts
          have hrest := ih (fun front _ hfront => hS _ (List.cons_ne_nil _ _) (by simpa using hfront))
            (fun front _ hfront => hother _ (List.cons_ne_nil _ _) (by simpa using hfront)) hbeneath
          rw [hrest]

/-- Whether the value at a position of a tree is found again, unchanged, in the restricted tree. -/
def FoundAgain (S : Position → Prop) (tree : Json) (position : Position) : Prop :=
  (position = [] ∨ S position) ∧ (tree.restrict S).at? (renumber S position) = tree.at? position

end FieldMask.Json
