import FieldMask.Proofs.Matching
import FieldMask.Proofs.Prune.Survival

/-!
# Pruning twice

What stays of a tree that has been pruned by one predicate and then by another is what stays when both must
keep a path (`filter_filter`).  A container may be left with nothing by the first pruning, or by the second,
or by both together; in each case it is one that held something in the tree, so pruning once drops it too.

Consequently it makes no difference in which order two predicates prune or whether one prunes again, and
pruning by a narrower predicate can start from what a wider one has left.
-/

namespace FieldMask.Json

variable {keep other : String → Bool}

/-! ## Containers that are emptied by two prunings -/

theorem isEmptyContainer_prune
    {tree : Json} (h : tree.isEmptyContainer = true) (keep : String → Bool) (path : String) :
    (tree.prune keep path).isEmptyContainer = true := by
  cases tree with
  | array items =>
      obtain rfl : items = [] := by simpa [isEmptyContainer] using h
      rfl
  | object members =>
      obtain rfl : members = [] := by simpa [isEmptyContainer] using h
      rfl
  | null | bool | number | string => exact h

/-- What is emptied in two stages is emptied in one of them. -/
theorem emptied_eq_or
    {before between after : Json}
    (hbetween : before.isEmptyContainer = true → between.isEmptyContainer = true)
    (hafter : between.isEmptyContainer = true → after.isEmptyContainer = true) :
    emptied before after = (emptied before between || emptied between after) := by
  unfold emptied
  by_cases hempty : between.isEmptyContainer = true
  · simp [hempty, hafter hempty]
  · have hbefore : ¬before.isEmptyContainer = true := fun h => hempty (hbetween h)
    simp [hempty, hbefore]

theorem emptied_prune_prune
    (keep other : String → Bool) (tree : Json) (path : String) :
    emptied tree ((tree.prune keep path).prune other path) =
      (emptied tree (tree.prune keep path) ||
        emptied (tree.prune keep path) ((tree.prune keep path).prune other path)) :=
  emptied_eq_or (fun h => isEmptyContainer_prune h keep path)
    (fun h => isEmptyContainer_prune h other path)

/-! ## Two prunings in one -/

theorem pruneItems_pruneItems
    {path : String} {items : List Json}
    (hitems : ∀ item ∈ items, (item.prune keep path).prune other path =
      item.prune (fun path => keep path && other path) path) :
    pruneItems other path (pruneItems keep path items) =
      pruneItems (fun path => keep path && other path) path items := by
  induction items with
  | nil => rfl
  | cons item items ih =>
      rw [List.forall_mem_cons] at hitems
      have hemptied := emptied_prune_prune keep other item path
      rw [hitems.1] at hemptied
      rw [pruneItems, pruneItems, hemptied, ← ih hitems.2]
      cases emptied item (item.prune keep path) with
      | true => simp
      | false => simp [pruneItems, hitems.1]

theorem pruneMembers_pruneMembers
    {path : String} {members : List (String × Json)}
    (hmembers : ∀ member ∈ members, ∀ path, (member.2.prune keep path).prune other path =
      member.2.prune (fun path => keep path && other path) path) :
    pruneMembers other path (pruneMembers keep path members) =
      pruneMembers (fun path => keep path && other path) path members := by
  induction members with
  | nil => rfl
  | cons member members ih =>
      obtain ⟨name, value⟩ := member
      rw [List.forall_mem_cons] at hmembers
      have htwice := hmembers.1 (Path.child path name)
      have hemptied := emptied_prune_prune keep other value (Path.child path name)
      rw [htwice] at hemptied
      rw [pruneMembers, pruneMembers, hemptied, ← ih hmembers.2]
      cases hkeep : keep (Path.child path name) with
      | false => simp
      | true =>
          cases emptied value (value.prune keep (Path.child path name)) with
          | true => simp
          | false => simp [pruneMembers, htwice]

theorem prune_prune
    (tree : Json) (path : String) :
    (tree.prune keep path).prune other path =
      tree.prune (fun path => keep path && other path) path := by
  induction tree using tree_induction generalizing path with
  | null | bool | number | string => rfl
  | array items ih =>
      simp only [prune]
      rw [pruneItems_pruneItems fun item hitem => ih item hitem path]
  | object members ih =>
      simp only [prune]
      rw [pruneMembers_pruneMembers fun member hmember => ih member hmember]

/-- Pruning twice is pruning by both predicates at once. -/
theorem filter_filter
    (tree : Json) (keep other : String → Bool) :
    (tree.filter keep).filter other = tree.filter fun path => keep path && other path :=
  prune_prune tree Path.root

/-- Pruning by a narrower predicate can start from what a wider one has left. -/
theorem filter_filter_of_imp
    {keep other : String → Bool} (h : ∀ path, keep path = true → other path = true) (tree : Json) :
    (tree.filter other).filter keep = tree.filter keep := by
  have hboth : (fun path => other path && keep path) = keep := by
    funext path
    cases hkeep : keep path with
    | false => simp
    | true => simp [h path hkeep]
  rw [filter_filter, hboth]

theorem Kept.of_imp
    {path : String} {position : Position} (h : ∀ path, keep path = true → other path = true)
    (hkept : Kept keep path position) :
    Kept other path position := by
  intro front name hfront
  exact h _ (hkept front name hfront)

/-- What survives pruning also survives pruning by a wider predicate. -/
theorem Survives.of_imp
    {tree : Json} {position : Position} (h : ∀ path, keep path = true → other path = true)
    (hsurvives : Survives keep tree position) :
    Survives other tree position := by
  rw [survives_iff_remains] at hsurvives ⊢
  obtain ⟨hroot, further, leaf, hat, hleaf, hkept⟩ := hsurvives
  exact ⟨hroot, further, leaf, hat, hleaf, hkept.of_imp h⟩

end FieldMask.Json

namespace FieldMask.Prune.Pruner

open Json

/-- Two pruners in turn leave what one pruner leaves that keeps what both of them keep, whatever they
remember.  So pruning again changes nothing, the order of two prunings does not matter, and what a narrower
predicate leaves is found in what a wider one has left.  A response therefore never loses anything when
fields are added to the selector or case is ignored. -/
theorem apply_apply
    (keep other : String → Bool) (tree : Json) :
    (∀ first second both,
      ((new other second).apply ((new keep first).apply tree).1).1 =
        ((new (fun path => keep path && other path) both).apply tree).1) ∧
    (tree.filter keep).filter other = tree.filter (fun path => keep path && other path) ∧
    (tree.filter keep).filter keep = tree.filter keep ∧
    (tree.filter keep).filter other = (tree.filter other).filter keep ∧
    ((∀ path, keep path = true → other path = true) →
      (tree.filter other).filter keep = tree.filter keep) ∧
    ∀ (set larger : FieldSet) (ignoreCase relaxed : Bool),
      set.fields ⊆ larger.fields → (ignoreCase = true → relaxed = true) →
      Response.select (Response.select tree (some larger) relaxed) (some set) ignoreCase =
        Response.select tree (some set) ignoreCase ∧
      ∀ position, Survives (set.selects ignoreCase) tree position →
        Survives (larger.selects relaxed) tree position := by
  refine ⟨?_, filter_filter tree keep other, ?_, ?_, fun h => filter_filter_of_imp h tree, ?_⟩
  · intro first second both
    simp only [fst_apply]
    exact filter_filter tree keep other
  · exact filter_filter_of_imp (fun _ hpath => hpath) tree
  · have hboth : (fun path => keep path && other path) = fun path => other path && keep path := by
      funext path
      exact Bool.and_comm _ _
    rw [filter_filter, filter_filter, hboth]
  · intro set larger ignoreCase relaxed hfields hcase
    have hselects : ∀ path, set.selects ignoreCase path = true → larger.selects relaxed path = true :=
      fun _ hpath => FieldSet.selects_of_subset hfields hcase hpath
    refine ⟨?_, fun _ => Survives.of_imp hselects⟩
    simp only [Response.select_some]
    exact filter_filter_of_imp hselects tree

end FieldMask.Prune.Pruner
