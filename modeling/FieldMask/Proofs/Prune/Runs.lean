import FieldMask.Proofs.Prune.Questions

/-!
# One tree after the other

A pruner can be used for any number of trees.  Every tree is pruned on an account that begins empty, so
neither what stays of it nor what the account says of it depends on the trees before (`applyAll_eq_map`).
-/

namespace FieldMask.Prune.Pruner

/-- What stays of each tree, and the pruner as it is then, when the trees are pruned in turn. -/
def applyAll (pruner : Pruner) : List Json → List (Json × Pruner)
  | [] => []
  | tree :: trees => pruner.apply tree :: (pruner.apply tree).2.applyAll trees

theorem remembers_apply
    (pruner : Pruner) (tree : Json) :
    (pruner.apply tree).2.ledger.remembers = pruner.ledger.remembers := by
  rw [ledger_apply, Ledger.remembers_judgeAll, Ledger.remembers_empty]

/-- Only the predicate and whether verdicts are remembered matter to what a pruner does next. -/
theorem apply_congr
    {pruner other : Pruner} (hkeep : pruner.keep = other.keep)
    (hremembers : pruner.ledger.remembers = other.ledger.remembers) (tree : Json) :
    pruner.apply tree = other.apply tree := by
  have hledger : (pruner.apply tree).2.ledger = (other.apply tree).2.ledger := by
    rw [ledger_apply, ledger_apply, hkeep, hremembers]
  have hpruner : (pruner.apply tree).2 = (other.apply tree).2 := by
    rw [Pruner.mk.injEq]
    exact ⟨hkeep, hledger⟩
  refine Prod.ext ?_ hpruner
  rw [fst_apply, fst_apply, hkeep]

/-- A pruner does with each tree what it would have done with it at first. -/
theorem applyAll_eq_map
    (pruner : Pruner) (trees : List Json) :
    pruner.applyAll trees = trees.map pruner.apply := by
  induction trees generalizing pruner with
  | nil => rfl
  | cons tree trees ih =>
      have hsame : (pruner.apply tree).2.apply = pruner.apply :=
        funext (apply_congr (keep_apply pruner tree) (remembers_apply pruner tree))
      rw [applyAll, ih, hsame, List.map_cons]

/-- A pruner that remembers verdicts leaves of each tree what a new one leaves that remembers nothing, and
its counters are those of a new one that has seen this tree only. -/
theorem applyAll_new
    (keep : String → Bool) (trees : List Json) :
    ((new keep true).applyAll trees).map Prod.fst =
      trees.map (fun tree => ((new keep false).apply tree).1) ∧
    ((new keep true).applyAll trees).map (fun call => call.2.stats) =
      trees.map fun tree => ((new keep true).apply tree).2.stats := by
  rw [applyAll_eq_map, List.map_map, List.map_map]
  refine ⟨?_, rfl⟩
  apply List.map_congr_left
  intro tree _
  rw [Function.comp_apply, fst_apply, fst_apply]
  rfl

end FieldMask.Prune.Pruner
