import FieldMask.Proofs.Prune.Questions

/-!
# What survives pruning

A leaf is a scalar or a container that holds nothing.  A leaf survives pruning when all properties on the
way to it are kept, and a container that holds something survives when something in it does; the root is
not asked.  Pruning restricts a tree to what survives (`filter_eq_restrict`): a container is left with
nothing exactly when it has no leaf whose properties are kept all the way.
-/

namespace FieldMask.Json

/-! ## Surviving positions -/

/-- The path of what a step leads to.  Items have the path of their array. -/
def Step.extend (path : String) : Step → String
  | .member name => Path.child path name
  | .item _ => path

/-- The path of a position in a value whose path is `path`. -/
def pathFrom (path : String) (position : Position) : String :=
  position.foldl Step.extend path

/-- Whether all properties on the way to a position, the last one included, are kept. -/
def Kept (keep : String → Bool) (path : String) (position : Position) : Prop :=
  ∀ front name, front ++ [.member name] <+: position →
    keep (pathFrom path (front ++ [.member name])) = true

/-- The positions of a tree that survive pruning. -/
inductive Survives (keep : String → Bool) (tree : Json) : Position → Prop
  | leaf {position : Position} {value : Json} (hroot : position ≠ [])
      (hat : tree.at? position = some value) (hleaf : value.hasParts = false)
      (hkept : Kept keep Path.root position) : Survives keep tree position
  | container {position further : Position} {value : Json} (hroot : position ≠ [])
      (hat : tree.at? position = some value) (hparts : value.hasParts = true)
      (hfurther : further ≠ []) (h : Survives keep tree (position ++ further)) :
      Survives keep tree position

/-- Whether there is a leaf at or beneath a position, with all properties on the way to it kept. -/
def Remains (keep : String → Bool) (path : String) (tree : Json) (position : Position) : Prop :=
  ∃ further leaf, tree.at? (position ++ further) = some leaf ∧ leaf.hasParts = false ∧
    Kept keep path (position ++ further)

variable {keep : String → Bool} {path : String}

theorem kept_nil :
    Kept keep path [] := by
  intro front name h
  simp at h

theorem kept_member_cons
    {name : String} {position : Position} :
    Kept keep path (.member name :: position) ↔
      keep (Path.child path name) = true ∧ Kept keep (Path.child path name) position := by
  constructor
  · intro h
    refine ⟨h [] name (by simp), ?_⟩
    intro front other hfront
    exact h (.member name :: front) other (by simpa using hfront)
  · rintro ⟨hname, h⟩ front other hfront
    cases front with
    | nil =>
        obtain rfl : other = name := by simpa using hfront
        exact hname
    | cons step front =>
        rw [List.cons_append, List.cons_prefix_cons] at hfront
        obtain ⟨rfl, hfront⟩ := hfront
        exact h front other hfront

theorem kept_item_cons
    {index : Nat} {position : Position} :
    Kept keep path (.item index :: position) ↔ Kept keep path position := by
  constructor
  · intro h front name hfront
    exact h (.item index :: front) name (by simpa using hfront)
  · intro h front name hfront
    cases front with
    | nil => simp at hfront
    | cons step front =>
        rw [List.cons_append, List.cons_prefix_cons] at hfront
        obtain ⟨rfl, hfront⟩ := hfront
        exact h front name hfront

theorem remains_item_cons
    {items : List Json} {index : Nat} {item : Json} (hitem : items[index]? = some item)
    (position : Position) :
    Remains keep path (.array items) (.item index :: position) ↔
      Remains keep path item position := by
  simp only [Remains, List.cons_append, kept_item_cons, at?_cons, part?, hitem, Option.bind_some]

theorem remains_member_cons
    {members : List (String × Json)} {name : String} {value : Json}
    (hvalue : members.lookup name = some value) (position : Position) :
    Remains keep path (.object members) (.member name :: position) ↔
      keep (Path.child path name) = true ∧ Remains keep (Path.child path name) value position := by
  simp only [Remains, List.cons_append, kept_member_cons, at?_cons, part?, hvalue,
    Option.bind_some]
  constructor
  · rintro ⟨further, leaf, hat, hleaf, hname, hkept⟩
    exact ⟨hname, further, leaf, hat, hleaf, hkept⟩
  · rintro ⟨hname, further, leaf, hat, hleaf, hkept⟩
    exact ⟨further, leaf, hat, hleaf, hname, hkept⟩

/-- At a position, a part remains of a value when it remains of what is there and all properties on the way
to the position are kept. -/
theorem remains_append_iff
    {tree value : Json} {position : Position} (hat : tree.at? position = some value)
    (further : Position) :
    Remains keep path tree (position ++ further) ↔
      Kept keep path position ∧ Remains keep (pathFrom path position) value further := by
  induction position generalizing tree path with
  | nil =>
      obtain rfl : tree = value := by simpa using hat
      rw [and_iff_right kept_nil]
      rfl
  | cons step position ih =>
      obtain ⟨part, hpart, hbeneath⟩ := Option.bind_eq_some_iff.mp hat
      rw [List.cons_append]
      cases step with
      | member name =>
          cases tree with
          | object members =>
              rw [remains_member_cons hpart, ih hbeneath, kept_member_cons, and_assoc]
              rfl
          | array | null | bool | number | string => simp [part?] at hpart
      | item index =>
          cases tree with
          | array items =>
              rw [remains_item_cons hpart, ih hbeneath, kept_item_cons]
              rfl
          | object | null | bool | number | string => simp [part?] at hpart

/-- The root remains when it is a leaf or one of its parts remains. -/
theorem remains_nil_iff
    (tree : Json) :
    Remains keep path tree [] ↔ tree.hasParts = false ∨ ∃ step, Remains keep path tree [step] := by
  constructor
  · rintro ⟨further, leaf, hat, hleaf, hkept⟩
    cases further with
    | nil =>
        obtain rfl : tree = leaf := by simpa using hat
        exact Or.inl hleaf
    | cons step further => exact Or.inr ⟨step, further, leaf, hat, hleaf, hkept⟩
  · rintro (hleaf | ⟨step, further, leaf, hat, hleaf, hkept⟩)
    · exact ⟨[], tree, rfl, hleaf, kept_nil⟩
    · exact ⟨step :: further, leaf, hat, hleaf, hkept⟩

theorem exists_part_of_remains
    {tree : Json} {step : Step} {position : Position}
    (h : Remains keep path tree (step :: position)) :
    ∃ part, tree.part? step = some part := by
  obtain ⟨further, leaf, hat, -⟩ := h
  obtain ⟨part, hpart, -⟩ := Option.bind_eq_some_iff.mp hat
  exact ⟨part, hpart⟩

/-- The surviving positions are those, apart from the root, at or beneath which a leaf remains. -/
theorem survives_iff_remains
    {tree : Json} {position : Position} :
    Survives keep tree position ↔ position ≠ [] ∧ Remains keep Path.root tree position := by
  constructor
  · intro h
    induction h with
    | @leaf position value hroot hat hleaf hkept =>
        exact ⟨hroot, [], value, by simpa using hat, hleaf, by simpa using hkept⟩
    | @container position further value hroot hat hparts hfurther h ih =>
        obtain ⟨-, rest, leaf, hat, hleaf, hkept⟩ := ih
        rw [List.append_assoc] at hat hkept
        exact ⟨hroot, further ++ rest, leaf, hat, hleaf, hkept⟩
  · rintro ⟨hroot, further, leaf, hat, hleaf, hkept⟩
    by_cases hfurther : further = []
    · subst hfurther
      rw [List.append_nil] at hat hkept
      exact .leaf hroot hat hleaf hkept
    · have hbeneath : Survives keep tree (position ++ further) :=
        .leaf (List.append_ne_nil_of_left_ne_nil hroot _) hat hleaf hkept
      rw [at?_append] at hat
      obtain ⟨value, hvalue, hat⟩ := Option.bind_eq_some_iff.mp hat
      refine .container hroot hvalue ?_ hfurther hbeneath
      obtain ⟨step, rest, rfl⟩ := List.exists_cons_of_ne_nil hfurther
      rw [← Bool.not_eq_false]
      intro hparts
      rw [at?_cons, part?_eq_none hparts] at hat
      cases hat

theorem exists_step_remains_array_iff
    (items : List Json) :
    (∃ step, Remains keep path (.array items) [step]) ↔ ∃ item ∈ items, Remains keep path item [] := by
  constructor
  · rintro ⟨step, hstep⟩
    obtain ⟨item, hitem⟩ := exists_part_of_remains hstep
    cases step with
    | member => simp [part?] at hitem
    | item index =>
        exact ⟨item, List.mem_of_getElem? hitem, (remains_item_cons hitem []).mp hstep⟩
  · rintro ⟨item, hmem, hremains⟩
    obtain ⟨index, hitem⟩ := List.getElem?_of_mem hmem
    exact ⟨.item index, (remains_item_cons hitem []).mpr hremains⟩

theorem exists_step_remains_object_iff
    {members : List (String × Json)} (h : (members.map Prod.fst).Nodup) :
    (∃ step, Remains keep path (.object members) [step]) ↔
      ∃ member ∈ members, keep (Path.child path member.1) = true ∧
        Remains keep (Path.child path member.1) member.2 [] := by
  constructor
  · rintro ⟨step, hstep⟩
    obtain ⟨value, hvalue⟩ := exists_part_of_remains hstep
    cases step with
    | item => simp [part?] at hvalue
    | member name =>
        exact ⟨(name, value), (lookup_eq_some_iff h name value).mp hvalue,
          (remains_member_cons hvalue []).mp hstep⟩
  · rintro ⟨⟨name, value⟩, hmem, hremains⟩
    have hvalue := (lookup_eq_some_iff h name value).mpr hmem
    exact ⟨.member name, (remains_member_cons hvalue []).mpr hremains⟩

/-! ## Containers left with nothing -/

theorem pruneItems_ne_nil_iff
    (items : List Json) :
    pruneItems keep path items ≠ [] ↔
      ∃ item ∈ items, emptied item (item.prune keep path) = false := by
  induction items with
  | nil => simp [pruneItems]
  | cons item items ih =>
      rw [pruneItems, List.exists_mem_cons_iff, ← ih]
      cases emptied item (item.prune keep path) <;> simp

theorem pruneMembers_ne_nil_iff
    (members : List (String × Json)) :
    pruneMembers keep path members ≠ [] ↔
      ∃ member ∈ members, keep (Path.child path member.1) = true ∧
        emptied member.2 (member.2.prune keep (Path.child path member.1)) = false := by
  induction members with
  | nil => simp [pruneMembers]
  | cons member members ih =>
      obtain ⟨name, value⟩ := member
      rw [pruneMembers, List.exists_mem_cons_iff, ← ih]
      cases keep (Path.child path name) <;>
        cases emptied value (value.prune keep (Path.child path name)) <;> simp

/-- A value is left with nothing exactly when no leaf in it remains. -/
theorem emptied_prune_eq_false_iff
    {tree : Json} (h : tree.UniqueNames) (path : String) :
    emptied tree (tree.prune keep path) = false ↔ Remains keep path tree [] := by
  rw [remains_nil_iff]
  induction tree using tree_induction generalizing path with
  | null | bool | number | string => simp [hasParts, emptied, isEmptyContainer, prune]
  | array items ih =>
      rw [UniqueNames, uniqueNamesItems_iff] at h
      have hparts : pruneItems keep path items ≠ [] ↔
          ∃ step, Remains keep path (.array items) [step] := by
        rw [pruneItems_ne_nil_iff, exists_step_remains_array_iff]
        apply exists_congr
        intro item
        apply and_congr_right
        intro hmem
        rw [ih item hmem (h item hmem), remains_nil_iff]
      rw [← hparts, prune]
      cases items <;> simp [emptied, isEmptyContainer, hasParts]
  | object members ih =>
      rw [UniqueNames, uniqueNamesMembers_iff] at h
      have hparts : pruneMembers keep path members ≠ [] ↔
          ∃ step, Remains keep path (.object members) [step] := by
        rw [pruneMembers_ne_nil_iff, exists_step_remains_object_iff h.1]
        apply exists_congr
        intro member
        apply and_congr_right
        intro hmem
        rw [ih member hmem (h.2 member hmem), remains_nil_iff]
      rw [← hparts, prune]
      cases members <;> simp [emptied, isEmptyContainer, hasParts]

/-! ## Pruning as a restriction -/

theorem pruneItems_eq_restrictItems
    {S : Nat → Position → Prop} {items : List Json}
    (hS : ∀ index item, items[index]? = some item → ∀ position,
      S index position ↔ Remains keep path item position)
    (hitems : ∀ item ∈ items, item.UniqueNames ∧
      item.prune keep path = item.restrict (Remains keep path item)) :
    pruneItems keep path items = restrictItems S items := by
  induction items generalizing S with
  | nil => rfl
  | cons item items ih =>
      rw [List.forall_mem_cons] at hitems
      have hfirst : S 0 = Remains keep path item :=
        funext fun position => propext (hS 0 item rfl position)
      have hrest := ih (S := fun index => S (index + 1))
        (fun index other hother => hS (index + 1) other (by simpa using hother)) hitems.2
      have hemptied : emptied item (item.prune keep path) = false ↔ Remains keep path item [] :=
        emptied_prune_eq_false_iff hitems.1.1 path
      rw [pruneItems, restrictItems, hfirst, ← hemptied, ← hrest, ← hitems.1.2]
      cases emptied item (item.prune keep path) <;> simp

theorem pruneMembers_eq_restrictMembers
    {S : String → Position → Prop} {members : List (String × Json)}
    (hS : ∀ member ∈ members, ∀ position, S member.1 position ↔
      keep (Path.child path member.1) = true ∧
        Remains keep (Path.child path member.1) member.2 position)
    (hmembers : ∀ member ∈ members, member.2.UniqueNames ∧ ∀ path,
      member.2.prune keep path = member.2.restrict (Remains keep path member.2)) :
    pruneMembers keep path members = restrictMembers S members := by
  induction members with
  | nil => rfl
  | cons member members ih =>
      obtain ⟨name, value⟩ := member
      rw [List.forall_mem_cons] at hS hmembers
      have hrest := ih hS.2 hmembers.2
      have hemptied : emptied value (value.prune keep (Path.child path name)) = false ↔
          Remains keep (Path.child path name) value [] :=
        emptied_prune_eq_false_iff hmembers.1.1 (Path.child path name)
      rw [pruneMembers, restrictMembers, ← hrest]
      cases hkeep : keep (Path.child path name) with
      | false => simp [hS.1, hkeep]
      | true =>
          have hfirst : S name = Remains keep (Path.child path name) value :=
            funext fun position => propext (by simpa [hkeep] using hS.1 position)
          rw [hfirst, ← hemptied, ← hmembers.1.2]
          cases emptied value (value.prune keep (Path.child path name)) <;> simp

/-- What stays of a value is its restriction to the positions at or beneath which a leaf remains. -/
theorem prune_eq_restrict
    {tree : Json} (h : tree.UniqueNames) (path : String) :
    tree.prune keep path = tree.restrict (Remains keep path tree) := by
  induction tree using tree_induction generalizing path with
  | null | bool | number | string => rfl
  | array items ih =>
      rw [UniqueNames, uniqueNamesItems_iff] at h
      rw [prune, restrict, Json.array.injEq]
      apply pruneItems_eq_restrictItems
      · intro index item hitem position
        exact remains_item_cons hitem position
      · intro item hmem
        exact ⟨h item hmem, ih item hmem (h item hmem) path⟩
  | object members ih =>
      rw [UniqueNames, uniqueNamesMembers_iff] at h
      rw [prune, restrict, Json.object.injEq]
      apply pruneMembers_eq_restrictMembers
      · intro member hmem position
        have hlookup := (lookup_eq_some_iff h.1 member.1 member.2).mpr hmem
        exact remains_member_cons hlookup position
      · intro member hmem
        exact ⟨h.2 member hmem, ih member hmem (h.2 member hmem)⟩

/-- Pruning restricts a tree to its surviving positions. -/
theorem filter_eq_restrict
    {tree : Json} (h : tree.UniqueNames) (keep : String → Bool) :
    tree.filter keep = tree.restrict (Survives keep tree) := by
  rw [filter, prune_eq_restrict h]
  apply restrict_congr
  intro position hposition
  rw [survives_iff_remains, and_iff_right hposition]

/-! ## What is found in a pruned tree -/

/-- Whether something is the value itself, if that is a scalar, or a container of the same kind. -/
def SameRoot : Json → Json → Prop
  | .array _, other => ∃ items, other = .array items
  | .object _, other => ∃ members, other = .object members
  | value, other => other = value

theorem sameRoot_restrict
    (tree : Json) (S : Position → Prop) :
    tree.SameRoot (tree.restrict S) := by
  cases tree with
  | array items => exact ⟨_, rfl⟩
  | object members => exact ⟨_, rfl⟩
  | null | bool | number | string => exact rfl

theorem Survives.of_prefix
    {tree : Json} {front position : Position} (h : Survives keep tree position)
    (hfront : front ≠ []) (hbefore : front <+: position) :
    Survives keep tree front := by
  obtain ⟨between, rfl⟩ := hbefore
  rw [survives_iff_remains] at h ⊢
  obtain ⟨-, further, leaf, hat, hleaf, hkept⟩ := h
  rw [List.append_assoc] at hat hkept
  exact ⟨hfront, between ++ further, leaf, hat, hleaf, hkept⟩

theorem survives_append_iff
    {tree value : Json} {position : Position} (hat : tree.at? position = some value)
    (further : Position) :
    Survives keep tree (position ++ further) ↔
      position ++ further ≠ [] ∧ Kept keep Path.root position ∧
        Remains keep (pathFrom Path.root position) value further := by
  rw [survives_iff_remains, remains_append_iff hat]

/-- At a surviving position, what is found in the pruned tree is what stays of the value there. -/
theorem at?_renumber_filter
    {tree value : Json} {position : Position} (h : tree.UniqueNames)
    (hsurvives : Survives keep tree position) (hat : tree.at? position = some value) :
    (tree.filter keep).at? (renumber (Survives keep tree) position) =
      some (value.prune keep (pathFrom Path.root position)) := by
  have hclosed : ∀ front, front ≠ [] → front <+: position → Survives keep tree front := by
    intro front hfront hbefore
    exact hsurvives.of_prefix hfront hbefore
  have hkept : Kept keep Path.root position := by
    have hremains := (survives_iff_remains.mp hsurvives).2
    rw [← List.append_nil position, remains_append_iff hat] at hremains
    exact hremains.1
  rw [filter_eq_restrict h, at?_renumber_restrict hclosed hat, prune_eq_restrict (h.of_at? hat),
    Option.some.injEq]
  apply restrict_congr
  intro further hfurther
  rw [survives_append_iff hat, and_iff_right hkept]
  exact and_iff_right (List.append_ne_nil_of_right_ne_nil position hfurther)

/-- Something survives in a surviving container that holds something. -/
theorem Survives.exists_beneath
    {tree value : Json} {position : Position} (h : Survives keep tree position)
    (hat : tree.at? position = some value) (hparts : value.hasParts = true) :
    ∃ further part, further ≠ [] ∧ value.at? further = some part ∧
      Survives keep tree (position ++ further) := by
  rw [survives_iff_remains] at h
  obtain ⟨hroot, further, leaf, hleafAt, hleaf, hkept⟩ := h
  have hfound := hleafAt
  rw [at?_append, hat, Option.bind_some] at hfound
  refine ⟨further, leaf, ?_, hfound, ?_⟩
  · rintro rfl
    obtain rfl : value = leaf := by simpa using hfound
    rw [hleaf] at hparts
    cases hparts
  · exact .leaf (List.append_ne_nil_of_left_ne_nil hroot _) hleafAt hleaf hkept

/-- Pruning leaves no surviving container with nothing. -/
theorem Survives.eq_of_isEmptyContainer
    {tree value : Json} {position : Position} (h : Survives keep tree position)
    (hat : tree.at? position = some value)
    (hempty : (value.restrict fun further =>
      Survives keep tree (position ++ further)).isEmptyContainer = true) :
    value = value.restrict fun further => Survives keep tree (position ++ further) := by
  by_cases hparts : value.hasParts = true
  · obtain ⟨further, part, hfurther, hpart, hbeneath⟩ := h.exists_beneath hat hparts
    have hclosed : ∀ front, front ≠ [] → front <+: further →
        Survives keep tree (position ++ front) := by
      intro front hfront hbefore
      have hne : position ++ front ≠ [] := by simp [hfront]
      exact hbeneath.of_prefix hne ((List.prefix_append_right_inj position).mpr hbefore)
    have hfound := at?_renumber_restrict
      (S := fun further => Survives keep tree (position ++ further)) hclosed hpart
    have hnone := part?_eq_none (hasParts_eq_false_of_isEmptyContainer hempty)
    obtain ⟨step, further, rfl⟩ := List.exists_cons_of_ne_nil hfurther
    cases step <;> simp [renumber, at?_cons, hnone] at hfound
  · rw [restrict_of_hasParts_eq_false (by simpa using hparts)]

end FieldMask.Json

namespace FieldMask.Prune.Pruner

open Json

/-- A pruner restricts a tree to its surviving positions.  The root stays what it is; what survives is
found again, the same scalar or a container of the same kind; and nothing else is found, least of all a
container that pruning has left with nothing. -/
theorem apply_eq_restrict
    (keep : String → Bool) (remembers : Bool) {tree : Json} (h : tree.UniqueNames) :
    ((Pruner.new keep remembers).apply tree).1 = tree.restrict (Survives keep tree) ∧
    tree.SameRoot ((Pruner.new keep remembers).apply tree).1 ∧
    (∀ position value, Survives keep tree position → tree.at? position = some value →
      ∃ kept, value.SameRoot kept ∧
        ((Pruner.new keep remembers).apply tree).1.at?
          (renumber (Survives keep tree) position) = some kept) ∧
    ∀ position value, position ≠ [] →
      ((Pruner.new keep remembers).apply tree).1.at? position = some value →
      ∃ origin old, Survives keep tree origin ∧ renumber (Survives keep tree) origin = position ∧
        tree.at? origin = some old ∧ old.SameRoot value ∧
        (value.isEmptyContainer = true → old = value) := by
  have hresult : ((Pruner.new keep remembers).apply tree).1 =
      tree.restrict (Survives keep tree) := by
    rw [fst_apply]
    exact filter_eq_restrict h keep
  rw [hresult]
  refine ⟨rfl, sameRoot_restrict tree _, ?_, ?_⟩
  · intro position value hsurvives hat
    have hclosed : ∀ front, front ≠ [] → front <+: position → Survives keep tree front := by
      intro front hfront hbefore
      exact hsurvives.of_prefix hfront hbefore
    exact ⟨_, sameRoot_restrict value _, at?_renumber_restrict hclosed hat⟩
  · intro position value hposition hat
    obtain ⟨origin, old, rfl, hsurvives, horigin, rfl⟩ := exists_origin_of_at?_restrict hat
    have hne : origin ≠ [] := by
      rintro rfl
      exact hposition rfl
    exact ⟨origin, old, hsurvives hne, rfl, horigin, sameRoot_restrict old _,
      (hsurvives hne).eq_of_isEmptyContainer horigin⟩

theorem apply_eq_restrict_items :
    let tree : Json := .object [("a", .array [.object [("b", .null)], .object []])]
    tree.UniqueNames ∧
      ((Pruner.new (· != "a/b") true).apply tree).1 =
        tree.restrict (Survives (· != "a/b") tree) ∧
      tree.restrict (Survives (· != "a/b") tree) = .object [("a", .array [.object []])] := by
  intro tree
  have h : tree.UniqueNames := by
    simp [tree, UniqueNames, UniqueNamesItems, UniqueNamesMembers]
  refine ⟨h, (apply_eq_restrict (· != "a/b") true h).1, ?_⟩
  rw [← filter_eq_restrict h]
  rfl

end FieldMask.Prune.Pruner
