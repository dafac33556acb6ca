import Std.Data.HashMap

/-!
# Asking about paths

A ledger keeps account of the questions that are put to a predicate on paths.  It may remember the
verdicts, and then no path is asked about twice.

It logs the paths that the predicate is really asked about, and apart from the log it counts how many
verdicts it has taken from the predicate and how many from memory.
-/

namespace FieldMask.Prune

/-- The questions asked so far. -/
structure Ledger where
  /-- The verdicts given so far, if they are remembered. -/
  verdicts : Option (Std.HashMap String Bool)
  /-- The paths that the predicate was asked about, in order. -/
  asked : Array String
  /-- The count of the verdicts that were asked for. -/
  evaluated : Nat
  /-- The count of the verdicts that were remembered. -/
  recalled : Nat

namespace Ledger

def empty (remembers : Bool) : Ledger :=
  ⟨if remembers then some ∅ else none, #[], 0, 0⟩

def remembers (ledger : Ledger) : Bool :=
  ledger.verdicts.isSome

def clear (ledger : Ledger) : Ledger :=
  empty ledger.remembers

/-- Asks the predicate about a path. -/
def ask (ledger : Ledger) (keep : String → Bool) (path : String) : Bool × Ledger :=
  (keep path, { ledger with asked := ledger.asked.push path })

/-- The verdict on a path: the remembered one, or else the predicate's.  A verdict is counted before it is
asked for, and it is remembered, if at all, when it is there. -/
def judge (ledger : Ledger) (keep : String → Bool) (path : String) : Bool × Ledger :=
  match ledger.verdicts with
  | none => ask { ledger with evaluated := ledger.evaluated + 1 } keep path
  | some known =>
    match known[path]? with
    | some verdict => (verdict, { ledger with recalled := ledger.recalled + 1 })
    | none =>
      let (verdict, ledger) := ask { ledger with evaluated := ledger.evaluated + 1 } keep path
      (verdict, { ledger with verdicts := some (known.insert path verdict) })

/-! ## A verdict that is known and one that is not -/

def remembered? (ledger : Ledger) (path : String) : Option Bool :=
  ledger.verdicts.bind (·[path]?)

/-- The ledger with a new verdict counted, logged and, if it has a memory, remembered. -/
def enter (ledger : Ledger) (path : String) (verdict : Bool) : Ledger where
  verdicts := ledger.verdicts.map (·.insert path verdict)
  asked := ledger.asked.push path
  evaluated := ledger.evaluated + 1
  recalled := ledger.recalled

theorem judge_of_remembered
    {ledger : Ledger} {path : String} {verdict : Bool} (h : ledger.remembered? path = some verdict)
    (keep : String → Bool) :
    ledger.judge keep path = (verdict, { ledger with recalled := ledger.recalled + 1 }) := by
  obtain ⟨known, hverdicts, hknown⟩ := Option.bind_eq_some_iff.mp h
  simp only [judge, hverdicts, hknown]

/-- Whether a ledger has no memory or has not met the path yet makes no difference to the account. -/
theorem judge_of_new
    {ledger : Ledger} {path : String} (h : ledger.remembered? path = none) (keep : String → Bool) :
    ledger.judge keep path = (keep path, ledger.enter path (keep path)) := by
  cases hverdicts : ledger.verdicts with
  | none => simp only [judge, ask, enter, hverdicts, Option.map_none]
  | some known =>
    have hknown : known[path]? = none := by simpa [remembered?, hverdicts] using h
    simp only [judge, ask, enter, hverdicts, hknown, Option.map_some]

@[simp]
theorem remembers_empty
    (remembers : Bool) :
    (empty remembers).remembers = remembers := by
  cases remembers <;> rfl

@[simp]
theorem remembers_enter
    (ledger : Ledger) (path : String) (verdict : Bool) :
    (ledger.enter path verdict).remembers = ledger.remembers := by
  simp [remembers, enter]

@[simp]
theorem remembers_judge
    (ledger : Ledger) (keep : String → Bool) (path : String) :
    (ledger.judge keep path).2.remembers = ledger.remembers := by
  cases hverdict : ledger.remembered? path with
  | some verdict => rw [judge_of_remembered hverdict]; rfl
  | none => rw [judge_of_new hverdict, remembers_enter]

/-- After a question has been entered, a ledger that remembers gives the same answer. -/
theorem remembered?_enter
    (ledger : Ledger) (path other : String) (verdict : Bool) :
    (ledger.enter path verdict).remembered? other =
      if path = other ∧ ledger.remembers then some verdict else ledger.remembered? other := by
  cases h : ledger.verdicts with
  | none => simp [remembered?, enter, remembers, h]
  | some known =>
    by_cases hpath : path = other <;>
      simp [remembered?, enter, remembers, h, hpath, Std.HashMap.getElem?_insert]

end Ledger

end FieldMask.Prune
