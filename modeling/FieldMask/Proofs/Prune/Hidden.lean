import FieldMask.Proofs.Prune.Questions

/-!
# The values of properties that go

A property whose path is not kept goes as soon as it has been judged, so its value is not looked at.  To
blank such values out (`Json.blank`) therefore changes neither what stays of a tree nor the questions about
it, and two trees that are the same once these values are blanked out cannot be told apart by what a pruner
does with them (`apply_eq_of_blank_eq`).
-/

namespace FieldMask

namespace Json

mutual

/-- A value whose path is `path`, with null in the place of the values of all properties that go. -/
def blank (keep : String → Bool) (path : String) : Json → Json
  | .array items => .array (blankItems keep path items)
  | .object members => .object (blankMembers keep path members)
  | .null => .null
  | .bool value => .bool value
  | .number value => .number value
  | .string value => .string value

def blankItems (keep : String → Bool) (path : String) : List Json → List Json
  | [] => []
  | item :: items => blank keep path item :: blankItems keep path items

def blankMembers (keep : String → Bool) (path : String) :
    List (String × Json) → List (String × Json)
  | [] => []
  | (name, value) :: members =>
    (name, if keep (Path.child path name) then blank keep (Path.child path name) value else .null) ::
      blankMembers keep path members

end

variable {keep : String → Bool} {path : String}

/-! ## What stays -/

/-- Blanking out leaves a container with as many parts as it had. -/
@[simp]
theorem isEmptyContainer_blank
    (keep : String → Bool) (path : String) (tree : Json) :
    (tree.blank keep path).isEmptyContainer = tree.isEmptyContainer := by
  cases tree with
  | array items => cases items <;> rfl
  | object members => cases members <;> rfl
  | null | bool | number | string => rfl

@[simp]
theorem emptied_blank
    (keep : String → Bool) (path : String) (tree after : Json) :
    emptied (tree.blank keep path) after = emptied tree after := by
  rw [emptied, emptied, isEmptyContainer_blank]

theorem pruneItems_blankItems
    {items : List Json}
    (hitems : ∀ item ∈ items, (item.blank keep path).prune keep path = item.prune keep path) :
    pruneItems keep path (blankItems keep path items) = pruneItems keep path items := by
  induction items with
  | nil => rfl
  | cons item items ih =>
      rw [List.forall_mem_cons] at hitems
      rw [blankItems, pruneItems, pruneItems, emptied_blank, hitems.1, ih hitems.2]

theorem pruneMembers_blankMembers
    {members : List (String × Json)}
    (hmembers : ∀ member ∈ members, ∀ path,
      (member.2.blank keep path).prune keep path = member.2.prune keep path) :
    pruneMembers keep path (blankMembers keep path members) = pruneMembers keep path members := by
  induction members with
  | nil => rfl
  | cons member members ih =>
      obtain ⟨name, value⟩ := member
      rw [List.forall_mem_cons] at hmembers
      rw [blankMembers, pruneMembers, pruneMembers, ih hmembers.2]
      by_cases hkeep : keep (Path.child path name) = true
      · rw [if_pos hkeep, emptied_blank, hmembers.1]
      · simp [hkeep]

/-- The values of properties that go do not matter to what stays. -/
theorem prune_blank
    (keep : String → Bool) (path : String) (tree : Json) :
    (tree.blank keep path).prune keep path = tree.prune keep path := by
  induction tree using tree_induction generalizing path with
  | null | bool | number | string => rfl
  | array items ih =>
      rw [blank, prune, prune, pruneItems_blankItems fun item hitem => ih item hitem path]
  | object members ih => rw [blank, prune, prune, pruneMembers_blankMembers ih]

end Json

namespace Prune

variable {keep : String → Bool} {path : String}

/-! ## What is asked -/

theorem questionsItems_blankItems
    {items : List Json}
    (hitems : ∀ item ∈ items,
      questions keep path (item.blank keep path) = questions keep path item) :
    questionsItems keep path (Json.blankItems keep path items) = questionsItems keep path items := by
  induction items with
  | nil => rfl
  | cons item items ih =>
      rw [List.forall_mem_cons] at hitems
      rw [Json.blankItems, questionsItems, questionsItems, hitems.1, ih hitems.2]

theorem questionsMembers_blankMembers
    {members : List (String × Json)}
    (hmembers : ∀ member ∈ members, ∀ path,
      questions keep path (member.2.blank keep path) = questions keep path member.2) :
    questionsMembers keep path (Json.blankMembers keep path members) =
      questionsMembers keep path members := by
  induction members with
  | nil => rfl
  | cons member members ih =>
      obtain ⟨name, value⟩ := member
      rw [List.forall_mem_cons] at hmembers
      rw [Json.blankMembers, questionsMembers, questionsMembers, ih hmembers.2]
      by_cases hkeep : keep (Path.child path name) = true
      · rw [if_pos hkeep, if_pos hkeep, if_pos hkeep, hmembers.1]
      · rw [if_neg hkeep, if_neg hkeep]

theorem map_fst_blankMembers
    (keep : String → Bool) (path : String) (members : List (String × Json)) :
    (Json.blankMembers keep path members).map Prod.fst = members.map Prod.fst := by
  induction members with
  | nil => rfl
  | cons member members ih => rw [Json.blankMembers, List.map_cons, List.map_cons, ih]

/-- The values of properties that go do not matter to what is asked. -/
theorem questions_blank
    (keep : String → Bool) (path : String) (tree : Json) :
    questions keep path (tree.blank keep path) = questions keep path tree := by
  induction tree using Json.tree_induction generalizing path with
  | null | bool | number | string => rfl
  | array items ih =>
      rw [Json.blank, questions, questions,
        questionsItems_blankItems fun item hitem => ih item hitem path]
  | object members ih =>
      have hnames := congrArg (List.map (Path.child path)) (map_fst_blankMembers keep path members)
      rw [List.map_map, List.map_map] at hnames
      rw [Json.blank, questions, questions, questionsMembers_blankMembers ih]
      exact congrArg (· ++ questionsMembers keep path members) hnames

/-! ## Two trees that differ in such values only -/

namespace Pruner

/-- A pruner, whatever it remembers, does the same with a tree when the values of properties that go are
blanked out. -/
theorem apply_blank
    (pruner : Pruner) (tree : Json) :
    pruner.apply (tree.blank pruner.keep Path.root) = pruner.apply tree := by
  have hpruned : (pruner.apply (tree.blank pruner.keep Path.root)).1 = (pruner.apply tree).1 := by
    rw [fst_apply, fst_apply]
    exact Json.prune_blank pruner.keep Path.root tree
  have hledger : (pruner.apply (tree.blank pruner.keep Path.root)).2.ledger =
      (pruner.apply tree).2.ledger := by
    rw [ledger_apply, ledger_apply, questions_blank]
  refine Prod.ext hpruned ?_
  rw [Pruner.mk.injEq]
  exact ⟨rfl, hledger⟩

/-- Of two trees that differ in the values of properties that go only, a pruner leaves the same, asks about
the same paths in the same order and remembers the same verdicts; and as responses to the same fields, the
same is sent of them, whatever becomes of it on the way. -/
theorem apply_eq_of_blank_eq
    (tree other : Json) :
    (∀ pruner : Pruner,
      tree.blank pruner.keep Path.root = other.blank pruner.keep Path.root →
      pruner.apply tree = pruner.apply other) ∧
    ∀ (set : FieldSet) (ignoreCase : Bool),
      tree.blank (set.selects ignoreCase) Path.root = other.blank (set.selects ignoreCase) Path.root →
      ∀ (sink : Sink) (pretty : Bool),
        Response.send sink tree (some set) ignoreCase pretty =
          Response.send sink other (some set) ignoreCase pretty := by
  have hpruner : ∀ pruner : Pruner,
      tree.blank pruner.keep Path.root = other.blank pruner.keep Path.root →
      pruner.apply tree = pruner.apply other := by
    intro pruner hsame
    rw [← apply_blank pruner tree, hsame, apply_blank]
  refine ⟨hpruner, ?_⟩
  intro set ignoreCase hsame sink pretty
  have hselect : Response.select tree (some set) ignoreCase =
      Response.select other (some set) ignoreCase :=
    congrArg Prod.fst (hpruner (new (set.selects ignoreCase) true) hsame)
  rw [Response.send, Response.send, hselect]

theorem apply_eq_of_blank_eq_items :
    let tree : Json := .object [("a", .array [.object [("b", .array []), ("c", .null)]]), ("d", .null)]
    let other : Json := .object
      [("a", .array [.object [("b", .object [("b", .null)]), ("c", .null)]]), ("d", .array [.null])]
    let set : FieldSet := .ofPaths ["a/c"]
    tree.blank (set.selects false) Path.root = other.blank (set.selects false) Path.root ∧
      (new (set.selects false) true).apply tree = (new (set.selects false) true).apply other ∧
      Response.send (.limited 12 "") tree (some set) false true =
        Response.send (.limited 12 "") other (some set) false true := by
  intro tree other set
  have hsame : tree.blank (set.selects false) Path.root =
      other.blank (set.selects false) Path.root := rfl
  obtain ⟨hpruner, hsend⟩ := apply_eq_of_blank_eq tree other
  exact ⟨hsame, hpruner (new (set.selects false) true) hsame, hsend set false hsame _ true⟩

end Pruner

end Prune

end FieldMask
