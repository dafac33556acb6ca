import FieldMask.Proofs.Json.Positions
import FieldMask.Response

/-!
# What a pruner asks

Verdicts that are remembered are those of the predicate, so it makes no difference whether a verdict is
remembered or asked for.  A walk over a tree therefore gives what pruning gives, and what it does to the
account is to put one list of questions to it, which depends on the tree and the predicate only
(`visit_eq`).  An empty account that remembers verdicts asks each question of the list once, at its first
place, and one that does not asks them all (`asked_judgeAll_empty`).
-/

namespace FieldMask.Prune

/-! ## Ledgers -/

namespace Ledger

/-- Every verdict that is remembered is that of the predicate. -/
def Agrees (ledger : Ledger) (keep : String → Bool) : Prop :=
  ∀ path verdict, ledger.remembered? path = some verdict → verdict = keep path

def judgeAll (ledger : Ledger) (keep : String → Bool) (paths : List String) : Ledger :=
  paths.foldl (fun ledger path => (ledger.judge keep path).2) ledger

theorem agrees_empty
    (remembers : Bool) (keep : String → Bool) :
    (empty remembers).Agrees keep := by
  intro path verdict h
  cases remembers <;> simp [empty, remembered?] at h

variable {ledger : Ledger} {keep : String → Bool}

theorem Agrees.judge_fst
    (h : ledger.Agrees keep) (path : String) :
    (ledger.judge keep path).1 = keep path := by
  cases hverdict : ledger.remembered? path with
  | some verdict => rw [judge_of_remembered hverdict, h path verdict hverdict]
  | none => rw [judge_of_new hverdict]

theorem Agrees.judge_snd
    (h : ledger.Agrees keep) (path : String) :
    (ledger.judge keep path).2.Agrees keep := by
  cases hknown : ledger.remembered? path with
  | some known =>
      rw [judge_of_remembered hknown]
      exact h
  | none =>
      intro other verdict hverdict
      rw [judge_of_new hknown, remembered?_enter] at hverdict
      split at hverdict
      next hpath =>
        obtain ⟨rfl, -⟩ := hpath
        simpa using hverdict.symm
      next => exact h other verdict hverdict

theorem Agrees.judgeAll
    (h : ledger.Agrees keep) (paths : List String) :
    (ledger.judgeAll keep paths).Agrees keep := by
  induction paths generalizing ledger with
  | nil => exact h
  | cons path paths ih => exact ih (h.judge_snd path)

@[simp]
theorem remembers_judgeAll
    (ledger : Ledger) (keep : String → Bool) (paths : List String) :
    (ledger.judgeAll keep paths).remembers = ledger.remembers := by
  induction paths generalizing ledger with
  | nil => rfl
  | cons path paths ih =>
      rw [← remembers_judge ledger keep path]
      exact ih (ledger.judge keep path).2

theorem judgeAll_cons
    (ledger : Ledger) (keep : String → Bool) (path : String) (paths : List String) :
    ledger.judgeAll keep (path :: paths) = (ledger.judge keep path).2.judgeAll keep paths :=
  rfl

theorem judgeAll_append
    (ledger : Ledger) (keep : String → Bool) (paths others : List String) :
    ledger.judgeAll keep (paths ++ others) = (ledger.judgeAll keep paths).judgeAll keep others :=
  List.foldl_append

/-- A ledger that does not remember asks every question. -/
theorem asked_judgeAll_of_not_remembers
    (h : ledger.remembers = false) (paths : List String) :
    (ledger.judgeAll keep paths).asked.toList = ledger.asked.toList ++ paths := by
  induction paths generalizing ledger with
  | nil => simp [judgeAll]
  | cons path paths ih =>
      have hverdicts : ledger.verdicts = none := by simpa [remembers] using h
      have hnew : ledger.remembered? path = none := by rw [remembered?, hverdicts, Option.bind_none]
      rw [judgeAll_cons, judge_of_new hnew]
      simpa [enter] using ih ((remembers_enter ledger path (keep path)).trans h)

theorem eraseDups_removeAll_cons
    {path : String} {seen : List String} (h : path ∉ seen) (paths : List String) :
    ((path :: paths).removeAll seen).eraseDups =
      path :: (paths.removeAll (seen ++ [path])).eraseDups := by
  have hfirst : (path :: paths).removeAll seen = path :: paths.removeAll seen := by
    simp [List.removeAll, h]
  have hrest : (paths.removeAll seen).filter (fun other => !other == path) =
      paths.removeAll (seen ++ [path]) := by
    simp only [List.removeAll, List.filter_filter]
    apply List.filter_congr
    intro other hother
    by_cases hsame : other = path
    · simp [hsame]
    · simp [hsame]
  rw [hfirst, List.eraseDups_cons, hrest]

/-- A ledger that remembers asks only the questions that it has not asked before. -/
theorem asked_judgeAll_of_remembers
    (h : ledger.remembers = true)
    (hasked : ∀ path, ledger.remembered? path = none ↔ path ∉ ledger.asked.toList)
    (paths : List String) :
    (ledger.judgeAll keep paths).asked.toList =
      ledger.asked.toList ++ (paths.removeAll ledger.asked.toList).eraseDups := by
  induction paths generalizing ledger with
  | nil => simp [judgeAll]
  | cons path paths ih =>
      rw [judgeAll_cons]
      by_cases hold : path ∈ ledger.asked.toList
      · obtain ⟨verdict, hverdict⟩ : ∃ verdict, ledger.remembered? path = some verdict := by
          apply Option.ne_none_iff_exists'.mp
          intro hnone
          exact (hasked path).mp hnone hold
        have hskip : (path :: paths).removeAll ledger.asked.toList =
            paths.removeAll ledger.asked.toList := by
          rw [List.removeAll, List.filter_cons_of_neg (by simpa using hold)]
          rfl
        rw [judge_of_remembered hverdict, hskip]
        exact ih h hasked
      · have hentered : ∀ other, (ledger.enter path (keep path)).remembered? other = none ↔
            other ∉ (ledger.enter path (keep path)).asked.toList := by
          intro other
          rw [remembered?_enter, h]
          by_cases hother : other = path
          · simp [hother, enter]
          · simp [hother, Ne.symm hother, enter, hasked]
        have hrest := ih ((remembers_enter ledger path (keep path)).trans h) hentered
        rw [judge_of_new ((hasked path).mpr hold), eraseDups_removeAll_cons hold]
        simpa [enter] using hrest

/-- A ledger without entries asks everything, or everything once if it remembers. -/
theorem asked_judgeAll_empty
    (remembers : Bool) (keep : String → Bool) (paths : List String) :
    ((empty remembers).judgeAll keep paths).asked.toList =
      if remembers then paths.eraseDups else paths := by
  cases remembers with
  | false =>
      rw [asked_judgeAll_of_not_remembers rfl]
      rfl
  | true =>
      have hasked : ∀ path, (empty true).remembered? path = none ↔
          path ∉ (empty true).asked.toList := by
        intro path
        simp [empty, remembered?]
      rw [asked_judgeAll_of_remembers rfl hasked]
      simp [empty, List.removeAll]

end Ledger

/-! ## The questions of a walk -/

mutual

/-- The questions about a value whose path is `path`. -/
def questions (keep : String → Bool) (path : String) : Json → List String
  | .array items => questionsItems keep path items
  | .object members =>
    members.map (fun member => Path.child path member.1) ++ questionsMembers keep path members
  | _ => []

def questionsItems (keep : String → Bool) (path : String) : List Json → List String
  | [] => []
  | item :: items => questions keep path item ++ questionsItems keep path items

def questionsMembers (keep : String → Bool) (path : String) : List (String × Json) → List String
  | [] => []
  | (name, value) :: members =>
    if keep (Path.child path name) then
      questions keep (Path.child path name) value ++ questionsMembers keep path members
    else
      questionsMembers keep path members

end

variable {keep : String → Bool}

theorem judgeMembers_eq
    {ledger : Ledger} (h : ledger.Agrees keep) (path : String) (members : List (String × Json)) :
    judgeMembers keep path members ledger =
      (members.map fun member => keep (Path.child path member.1),
        ledger.judgeAll keep (members.map fun member => Path.child path member.1)) := by
  induction members generalizing ledger with
  | nil => rfl
  | cons member members ih =>
      obtain ⟨name, value⟩ := member
      simp only [judgeMembers, ih (h.judge_snd _), h.judge_fst]
      rfl

theorem visitItems_eq
    {items : List Json}
    (hitems : ∀ item ∈ items, ∀ path (ledger : Ledger), ledger.Agrees keep →
      visit keep path item ledger =
        (item.prune keep path, ledger.judgeAll keep (questions keep path item)))
    (path : String) {ledger : Ledger} (h : ledger.Agrees keep) :
    visitItems keep path items ledger =
      (Json.pruneItems keep path items,
        ledger.judgeAll keep (questionsItems keep path items)) := by
  induction items generalizing ledger with
  | nil => rfl
  | cons item items ih =>
      rw [List.forall_mem_cons] at hitems
      simp only [visitItems, hitems.1 path ledger h, ih hitems.2 (h.judgeAll _), Json.pruneItems,
        questionsItems, Ledger.judgeAll_append]

theorem visitMembers_eq
    {members : List (String × Json)}
    (hmembers : ∀ member ∈ members, ∀ path (ledger : Ledger), ledger.Agrees keep →
      visit keep path member.2 ledger =
        (member.2.prune keep path, ledger.judgeAll keep (questions keep path member.2)))
    (path : String) {ledger : Ledger} (h : ledger.Agrees keep) :
    visitMembers keep path members (members.map fun member => keep (Path.child path member.1))
        ledger =
      (Json.pruneMembers keep path members,
        ledger.judgeAll keep (questionsMembers keep path members)) := by
  induction members generalizing ledger with
  | nil => rfl
  | cons member members ih =>
      obtain ⟨name, value⟩ := member
      rw [List.forall_mem_cons] at hmembers
      rw [List.map_cons]
      cases hkeep : keep (Path.child path name) with
      | false =>
          simp only [visitMembers, Json.pruneMembers, questionsMembers, hkeep, ih hmembers.2 h]
          rfl
      | true =>
          simp only [visitMembers, Json.pruneMembers, questionsMembers, hkeep,
            hmembers.1 _ ledger h, ih hmembers.2 (h.judgeAll _), if_true, Ledger.judgeAll_append]
          cases value.emptied (value.prune keep (Path.child path name)) <;> rfl

/-- A walk prunes and puts its questions to the ledger. -/
theorem visit_eq
    (tree : Json) (path : String) (ledger : Ledger) (h : ledger.Agrees keep) :
    visit keep path tree ledger =
      (tree.prune keep path, ledger.judgeAll keep (questions keep path tree)) := by
  induction tree using Json.tree_induction generalizing path ledger with
  | null | bool | number | string => rfl
  | array items ih => simp only [visit, visitItems_eq ih path h, Json.prune, questions]
  | object members ih =>
      simp only [visit, judgeMembers_eq h, visitMembers_eq ih path (h.judgeAll _), Json.prune,
        questions, Ledger.judgeAll_append]

/-- What stays of a tree does not depend on the account. -/
theorem Pruner.fst_apply
    (pruner : Pruner) (tree : Json) :
    (pruner.apply tree).1 = tree.filter pruner.keep := by
  have hclear : pruner.ledger.clear.Agrees pruner.keep := Ledger.agrees_empty _ _
  have hvisit := visit_eq tree Path.root pruner.ledger.clear hclear
  rw [Pruner.apply, hvisit]
  rfl

/-- The account is that of the questions about this tree, put to an empty ledger. -/
theorem Pruner.ledger_apply
    (pruner : Pruner) (tree : Json) :
    (pruner.apply tree).2.ledger =
      (Ledger.empty pruner.ledger.remembers).judgeAll pruner.keep
        (questions pruner.keep Path.root tree) := by
  have hclear : pruner.ledger.clear.Agrees pruner.keep := Ledger.agrees_empty _ _
  have hvisit := visit_eq tree Path.root pruner.ledger.clear hclear
  rw [Pruner.apply, hvisit]
  rfl

/-- What a pruner asks about a tree: all its questions, or each path once if it has a memory. -/
theorem Pruner.asked_apply
    (pruner : Pruner) (tree : Json) :
    (pruner.apply tree).2.ledger.asked.toList =
      if pruner.ledger.remembers then (questions pruner.keep Path.root tree).eraseDups
      else questions pruner.keep Path.root tree := by
  rw [ledger_apply, Ledger.asked_judgeAll_empty]

end FieldMask.Prune

namespace FieldMask.Response

/-- A response is pruned by the fields asked for, whatever account was kept of it. -/
theorem select_some
    (tree : Json) (set : FieldSet) (ignoreCase : Bool) :
    select tree (some set) ignoreCase = tree.filter (set.selects ignoreCase) :=
  (Prune.Pruner.new (set.selects ignoreCase) true).fst_apply tree

end FieldMask.Response
