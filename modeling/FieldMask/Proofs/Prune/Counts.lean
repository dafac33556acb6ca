import FieldMask.Proofs.Prune.Runs
import Mathlib.Data.Finset.Card

/-!
# How often a pruner asks

A ledger has counted as many questions as it has logged (`Ledger.Tallies`), however it came to its entries.
Every question that is put to it is either asked or answered from memory, so both counters together give the
number of questions (`Ledger.recalled_add_evaluated_judgeAll`).  What a pruner without a memory asks is all the
questions about the tree.  One with a memory asks each path of them once, where it comes up first, and remembers
the verdict wherever the path comes up again (`Pruner.asked_once_per_path`).
-/

namespace FieldMask.Prune

theorem nodup_eraseDups
    (paths : List String) :
    paths.eraseDups.Nodup := by
  cases paths with
  | nil => simp
  | cons path paths =>
      rw [List.eraseDups_cons, List.nodup_cons, List.mem_eraseDups]
      exact ⟨by simp, nodup_eraseDups _⟩
termination_by paths.length
decreasing_by exact Nat.lt_succ_of_le (List.length_filter_le _ _)

/-- What is left without repetitions is as long as there are different paths. -/
theorem length_eraseDups
    (paths : List String) :
    paths.eraseDups.length = paths.toFinset.card := by
  have hsame : paths.eraseDups.toFinset = paths.toFinset := by
    ext path
    simp
  rw [← hsame, List.toFinset_card_of_nodup (nodup_eraseDups paths)]

namespace Ledger

/-- Whether as many questions were counted as the predicate was asked. -/
def Tallies (ledger : Ledger) : Prop :=
  ledger.evaluated = ledger.asked.size

theorem tallies_empty
    (remembers : Bool) :
    (empty remembers).Tallies :=
  rfl

theorem Tallies.judge
    {ledger : Ledger} (h : ledger.Tallies) (keep : String → Bool) (path : String) :
    (ledger.judge keep path).2.Tallies := by
  cases hverdict : ledger.remembered? path with
  | some verdict =>
      rw [judge_of_remembered hverdict]
      exact h
  | none =>
      rw [judge_of_new hverdict, Tallies, enter, Array.size_push, h]

theorem Tallies.judgeAll
    {ledger : Ledger} (h : ledger.Tallies) (keep : String → Bool) (paths : List String) :
    (ledger.judgeAll keep paths).Tallies := by
  induction paths generalizing ledger with
  | nil => exact h
  | cons path paths ih => exact ih (h.judge keep path)

/-- A question is asked or answered from memory. -/
theorem recalled_add_evaluated_judge
    (ledger : Ledger) (keep : String → Bool) (path : String) :
    (ledger.judge keep path).2.recalled + (ledger.judge keep path).2.evaluated =
      ledger.recalled + ledger.evaluated + 1 := by
  cases hverdict : ledger.remembered? path with
  | some verdict =>
      rw [judge_of_remembered hverdict]
      exact Nat.add_right_comm _ _ _
  | none =>
      rw [judge_of_new hverdict]
      exact (Nat.add_assoc _ _ _).symm

theorem recalled_add_evaluated_judgeAll
    (ledger : Ledger) (keep : String → Bool) (paths : List String) :
    (ledger.judgeAll keep paths).recalled + (ledger.judgeAll keep paths).evaluated =
      ledger.recalled + ledger.evaluated + paths.length := by
  induction paths generalizing ledger with
  | nil => rfl
  | cons path paths ih =>
      rw [judgeAll_cons, ih, recalled_add_evaluated_judge, List.length_cons]
      omega

end Ledger

namespace Pruner

theorem tallies_apply
    (pruner : Pruner) (tree : Json) :
    (pruner.apply tree).2.ledger.Tallies := by
  rw [ledger_apply]
  exact (Ledger.tallies_empty _).judgeAll _ _

/-- The counters of a pruner: how many of the questions about the tree it asked, and how many others there
were. -/
theorem stats_apply
    (pruner : Pruner) (tree : Json) :
    (pruner.apply tree).2.stats =
      ((pruner.apply tree).2.ledger.asked.toList.length,
        (questions pruner.keep Path.root tree).length -
          (pruner.apply tree).2.ledger.asked.toList.length) := by
  have hevaluated : (pruner.apply tree).2.ledger.evaluated =
      (pruner.apply tree).2.ledger.asked.toList.length := pruner.tallies_apply tree
  have hsum : (pruner.apply tree).2.ledger.recalled + (pruner.apply tree).2.ledger.evaluated =
      (questions pruner.keep Path.root tree).length := by
    rw [ledger_apply, Ledger.recalled_add_evaluated_judgeAll]
    simp [Ledger.empty]
  rw [stats, Prod.mk.injEq]
  exact ⟨hevaluated, by omega⟩

/-- A pruner with a memory asks about each path once, where a pruner without one asks about it first.  It
counts the different paths and, as remembered, all the repetitions. -/
theorem asked_once_per_path
    {pruner plain : Pruner} (hkeep : pruner.keep = plain.keep)
    (hremembers : pruner.ledger.remembers = true) (hplain : plain.ledger.remembers = false)
    (tree : Json) :
    let every := (plain.apply tree).2.ledger.asked.toList
    (pruner.apply tree).2.ledger.asked.toList = every.eraseDups ∧
      (pruner.apply tree).2.stats =
        (every.toFinset.card, every.length - every.toFinset.card) ∧
      (plain.apply tree).2.stats = (every.length, 0) := by
  intro every
  have hevery : every = questions plain.keep Path.root tree := by
    simpa [hplain] using asked_apply plain tree
  have hasked : (pruner.apply tree).2.ledger.asked.toList = every.eraseDups := by
    rw [asked_apply, if_pos hremembers, hkeep, hevery]
  refine ⟨hasked, ?_, ?_⟩
  · rw [stats_apply, hasked, length_eraseDups, hkeep, ← hevery]
  · rw [stats_apply, ← hevery, Nat.sub_self]

theorem asked_once_per_path_items :
    let keep : String → Bool := (· != "games/name")
    let game : Json := .object [("id", .null), ("name", .null)]
    let tree : Json := .object [("games", .array [game, game, .array [game]])]
    (new keep true).ledger.remembers = true ∧ (new keep false).ledger.remembers = false ∧
      ((new keep true).apply tree).2.ledger.asked.toList = ["games", "games/id", "games/name"] ∧
      ((new keep true).apply tree).2.stats = (3, 4) ∧
      ((new keep false).apply tree).2.stats = (7, 0) := by
  intro keep game tree
  have hplain : ((new keep false).apply tree).2.ledger.asked.toList =
      ["games", "games/id", "games/name", "games/id", "games/name", "games/id", "games/name"] :=
    asked_apply (new keep false) tree
  have hkeep : (new keep true).keep = (new keep false).keep := rfl
  have hcounts := asked_once_per_path hkeep rfl rfl tree
  rw [hplain] at hcounts
  exact ⟨rfl, rfl, hcounts⟩

end Pruner

end FieldMask.Prune
