import FieldMask.Proofs.Prune.Judged
import Mathlib.Data.List.Nodup

/-!
# The order in which properties are judged

The members of an object are all judged, in their order, before anything inside any of them is.  Then come
the values of the members that stay, in the same order, each one completely before the next.  The items of an
array are gone through one after the other.  `Before` says so of two positions: by what is around them when
they part, and by the value that they both lead into when they do not.

The properties that are judged have one list in this order, and that is the list of the questions of a pruner
without a memory (`Pruner.asked_level_by_level`).
-/

namespace FieldMask.Prune

open Json

/-- Where the member with a name stands among the members of an object. -/
def place (members : List (String × Json)) (name : String) : Nat :=
  (members.map Prod.fst).idxOf name

/-- Whether the property at the first position is judged before the property at the second. -/
inductive Before : Json → Position → Position → Prop
  /-- Two members of an object. -/
  | members {members : List (String × Json)} {name other : String}
      (h : place members name < place members other) :
      Before (.object members) [.member name] [.member other]
  /-- A member of an object, and a property inside any member of it. -/
  | level {members : List (String × Json)} {name other : String} {further : Position}
      (hfurther : further ≠ []) :
      Before (.object members) [.member name] (.member other :: further)
  /-- Properties inside two members of an object. -/
  | values {members : List (String × Json)} {name other : String} {position further : Position}
      (h : place members name < place members other) (hposition : position ≠ [])
      (hfurther : further ≠ []) :
      Before (.object members) (.member name :: position) (.member other :: further)
  /-- Properties inside two items of an array. -/
  | items {items : List Json} {index other : Nat} {position further : Position}
      (h : index < other) :
      Before (.array items) (.item index :: position) (.item other :: further)
  /-- Properties inside the same part of a value. -/
  | part {tree part : Json} {step : Step} {position further : Position}
      (hpart : tree.part? step = some part) (h : Before part position further) :
      Before tree (step :: position) (step :: further)

variable {keep : String → Bool}

/-! ## At most one list is in order -/

theorem not_before_nil
    (tree : Json) (position : Position) :
    ¬Before tree position [] := by
  intro h
  cases h

theorem Before.asymm
    {tree : Json} {position further : Position} (h : Before tree position further) :
    ¬Before tree further position := by
  induction h with
  | members h =>
      intro hback
      cases hback with
      | members hback => exact absurd h (Nat.lt_asymm hback)
      | level hne => exact hne rfl
      | values hback hne => exact hne rfl
      | part hpart hback => exact absurd h (Nat.lt_irrefl _)
  | level hne =>
      intro hback
      cases hback with
      | members => exact hne rfl
      | level => exact hne rfl
      | values hback hne hnil => exact hnil rfl
      | part hpart hback => exact not_before_nil _ _ hback
  | values h hposition hfurther =>
      intro hback
      cases hback with
      | members => exact hfurther rfl
      | level => exact hfurther rfl
      | values hback => exact absurd h (Nat.lt_asymm hback)
      | part hpart hback => exact absurd h (Nat.lt_irrefl _)
  | items h =>
      intro hback
      cases hback with
      | items hback => exact absurd h (Nat.lt_asymm hback)
      | part hpart hback => exact absurd h (Nat.lt_irrefl _)
  | part hpart h ih =>
      intro hback
      cases hback with
      | members hback => exact absurd hback (Nat.lt_irrefl _)
      | level => exact not_before_nil _ _ h
      | values hback => exact absurd hback (Nat.lt_irrefl _)
      | items hback => exact absurd hback (Nat.lt_irrefl _)
      | part hsame hback =>
          obtain rfl : _ = _ := Option.some.inj (hpart.symm.trans hsame)
          exact ih hback

theorem nodup_of_pairwise_before
    {tree : Json} {positions : List Position} (h : positions.Pairwise (Before tree)) :
    positions.Nodup := by
  refine h.imp ?_
  rintro position _ hbefore rfl
  exact hbefore.asymm hbefore

/-- Positions can be put in order in one way only. -/
theorem eq_of_pairwise_before
    {tree : Json} {positions others : List Position} (h : positions.Pairwise (Before tree))
    (hothers : others.Pairwise (Before tree))
    (hsame : ∀ position, position ∈ positions ↔ position ∈ others) :
    positions = others := by
  have hperm : positions.Perm others :=
    (List.perm_ext_iff_of_nodup (nodup_of_pairwise_before h)
      (nodup_of_pairwise_before hothers)).mpr hsame
  refine List.Perm.eq_of_pairwise ?_ h hothers hperm
  intro position other _ _ hbefore hback
  exact absurd hback hbefore.asymm

/-! ## The judged properties are in order -/

theorem pairwise_place
    {members : List (String × Json)} (h : (members.map Prod.fst).Nodup) :
    members.Pairwise fun member other => place members member.1 < place members other.1 := by
  have hplace (index : Nat) (hindex : index < members.length) :
      place members members[index].1 = index := by
    have hname := h.idxOf_getElem index (by simpa using hindex)
    rwa [List.getElem_map] at hname
  rw [List.pairwise_iff_getElem]
  intro index other hindex hother hlt
  rw [hplace index hindex, hplace other hother]
  exact hlt

theorem pairwise_snd_zipIdx
    (items : List Json) :
    items.zipIdx.Pairwise fun item other => item.2 < other.2 := by
  have hnumbers : (items.zipIdx.map Prod.snd).Pairwise (· < ·) := by
    rw [List.zipIdx_map_snd]
    exact List.pairwise_lt_range'
  exact List.pairwise_map.mp hnumbers

theorem ne_nil_of_mem_judged
    {tree : Json} (h : tree.UniqueNames) {path : String} {position : Position}
    (hjudged : position ∈ judged keep path tree) :
    position ≠ [] := by
  rintro rfl
  exact not_reached_nil tree ((mem_judged_iff h path []).mp hjudged)

theorem pairwise_judged
    {tree : Json} (h : tree.UniqueNames) (path : String) :
    (judged keep path tree).Pairwise (Before tree) := by
  induction tree using tree_induction generalizing path with
  | null | bool | number | string => exact .nil
  | array items ih =>
      rw [UniqueNames, uniqueNamesItems_iff] at h
      rw [judged, judgedItems_eq_flatMap, List.pairwise_flatMap]
      constructor
      · rintro ⟨item, index⟩ hitem
        have hat : items[index]? = some item := List.mem_zipIdx_iff_getElem?.mp hitem
        have hmem : item ∈ items := List.mem_of_getElem? hat
        exact List.pairwise_map.mpr ((ih item hmem (h item hmem) path).imp (.part hat))
      · refine (pairwise_snd_zipIdx items).imp ?_
        rintro ⟨item, index⟩ ⟨other, next⟩ hlt position hposition further hfurther
        obtain ⟨position, -, rfl⟩ := List.mem_map.mp hposition
        obtain ⟨further, -, rfl⟩ := List.mem_map.mp hfurther
        exact .items hlt
  | object members ih =>
      rw [UniqueNames, uniqueNamesMembers_iff] at h
      -- what is found in a member is a property inside it, so it comes after all members
      have hinside : ∀ member ∈ members, ∀ position ∈ judged keep (Path.child path member.1) member.2,
          position ≠ [] :=
        fun member hmem _ hposition => ne_nil_of_mem_judged (h.2 member hmem) hposition
      rw [judged, judgedMembers_eq_flatMap, List.pairwise_append, List.pairwise_map,
        List.pairwise_flatMap]
      refine ⟨(pairwise_place h.1).imp .members, ⟨?_, ?_⟩, ?_⟩
      · rintro ⟨name, value⟩ hmember
        have hmem := List.mem_of_mem_filter hmember
        have hpart := (lookup_eq_some_iff h.1 name value).mpr hmem
        exact List.pairwise_map.mpr ((ih (name, value) hmem (h.2 _ hmem) _).imp (.part hpart))
      · refine ((pairwise_place h.1).filter _).imp_of_mem ?_
        rintro ⟨name, value⟩ ⟨other, next⟩ hmember hother hplace position hposition further hfurther
        obtain ⟨front, hfront, rfl⟩ := List.mem_map.mp hposition
        obtain ⟨back, hback, rfl⟩ := List.mem_map.mp hfurther
        exact .values hplace (hinside _ (List.mem_of_mem_filter hmember) front hfront)
          (hinside _ (List.mem_of_mem_filter hother) back hback)
      · intro position hposition further hfurther
        obtain ⟨member, -, rfl⟩ := List.mem_map.mp hposition
        obtain ⟨other, hother, hinner⟩ := List.mem_flatMap.mp hfurther
        obtain ⟨back, hback, rfl⟩ := List.mem_map.mp hinner
        exact .level (hinside other (List.mem_of_mem_filter hother) back hback)

namespace Pruner

/-- A pruner without a memory asks once about each property whose enclosing properties are all kept, and about
nothing else: all members of an object before anything inside any of them, and so on level by level. -/
theorem asked_level_by_level
    {pruner : Pruner} (hforgets : pruner.ledger.remembers = false) {tree : Json}
    (h : tree.UniqueNames) :
    ∃ positions : List Position,
      (pruner.apply tree).2.ledger.asked.toList = positions.map (pathFrom Path.root) ∧
      positions.Nodup ∧
      (∀ position, position ∈ positions ↔ Reached pruner.keep Path.root tree position) ∧
      positions.Pairwise (Before tree) ∧
      ∀ others : List Position, others.Pairwise (Before tree) →
        (∀ position, position ∈ others ↔ Reached pruner.keep Path.root tree position) →
        others = positions := by
  have horder : (judged pruner.keep Path.root tree).Pairwise (Before tree) :=
    pairwise_judged h Path.root
  refine ⟨judged pruner.keep Path.root tree, ?_, nodup_of_pairwise_before horder,
    mem_judged_iff h Path.root, horder, ?_⟩
  · rw [asked_apply, hforgets, ← questions_eq_map_judged]
    rfl
  · intro others hothers hmem
    apply eq_of_pairwise_before hothers horder
    intro position
    rw [hmem, mem_judged_iff h]

theorem asked_level_by_level_items :
    let tree : Json :=
      .object [("a", .object [("b", .null)]), ("c", .array [.object [("d", .null)], .array [], .object []]),
        ("e", .object [("f", .null)])]
    (new (· != "e") false).ledger.remembers = false ∧ tree.UniqueNames ∧
      ∃ positions : List Position,
        positions.map (pathFrom Path.root) = ["a", "c", "e", "a/b", "c/d"] ∧ positions.Nodup ∧
        positions.Pairwise (Before tree) := by
  intro tree
  have hforgets : (new (· != "e") false).ledger.remembers = false := rfl
  have h : tree.UniqueNames := by
    simp [tree, UniqueNames, UniqueNamesItems, UniqueNamesMembers]
  obtain ⟨positions, hasked, hnodup, -, horder, -⟩ := asked_level_by_level hforgets h
  exact ⟨hforgets, h, positions, hasked.symm.trans (asked_apply _ tree), hnodup, horder⟩

end Pruner

end FieldMask.Prune
