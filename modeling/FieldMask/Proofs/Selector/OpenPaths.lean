import FieldMask.Proofs.Selector.Correctness
import FieldMask.Proofs.Selector.Halting

/-!
# Open paths, open groups and commas

A machine has one path open for each open group, and one more while a path is unfinished or has just come to its
end.  Nothing is ever taken from an empty stack, so no path is lost on the way and each end of a branch becomes a
field (`Machine.stack_follows_groups`).

The branches that a comma keeps apart are on the same level or on different ones; either way each comma adds one
branch, and so one end (`Selection.length_ends`).
-/

namespace FieldMask

namespace Selector

/-! ## Ends and commas of a selection -/

theorem count_comma_pathLexemes
    (first : String) (more : List String) :
    (pathLexemes first more).count (.comma, ",") = 0 := by
  simp [pathLexemes, List.count_eq_zero]

/-- Branches with a comma in front of each have as many ends as commas. -/
theorem length_endsAll
    {above : List String} {branches : List Branch}
    (h : ∀ branch ∈ branches,
      (branch.ends above).length = branch.lexemes.count (.comma, ",") + 1) :
    (endsAll above branches).length =
      (lexemesAll [(.comma, ",")] branches).count (.comma, ",") := by
  induction branches with
  | nil => rfl
  | cons branch branches ih =>
      obtain ⟨hbranch, hothers⟩ := List.forall_mem_cons.mp h
      rw [endsAll, lexemesAll, List.length_append, List.count_append, List.count_append, hbranch,
        ih hothers, List.count_singleton_self]
      omega

theorem length_ends
    (branch : Branch) (above : List String) :
    (branch.ends above).length = branch.lexemes.count (.comma, ",") + 1 := by
  induction branch using Branch.induction generalizing above with
  | mk first more group ih =>
      cases group with
      | nil => rw [Branch.ends, Branch.lexemes, count_comma_pathLexemes, List.length_singleton]
      | cons branch branches =>
          have hgroup := length_endsAll fun other h => ih other h (above ++ first :: more)
          -- in front of the first branch of a group stands a parenthesis and not the comma
          rw [lexemesAll_comma, List.count_cons_self] at hgroup
          rw [Branch.ends, hgroup, Branch.lexemes]
          simp [count_comma_pathLexemes]

/-- A selection has one end more than commas. -/
theorem Selection.length_ends
    (selection : Selection) :
    selection.ends.length = selection.lexemes.count (.comma, ",") + 1 := by
  have hall : selection.ends.length = (lexemesAll [(.comma, ",")] selection.branches).count (.comma, ",") :=
    length_endsAll fun branch _ => Selector.length_ends branch []
  rwa [branches, lexemesAll_comma, List.count_cons_self] at hall

/-! ## Commas of a text -/

/-- Only a comma is written with a comma. -/
theorem Lexeme.WellFormed.count_comma
    {lexeme : Lexeme} (h : lexeme.WellFormed) :
    lexeme.2.toList.count ',' = [lexeme].count (.comma, ",") := by
  obtain ⟨kind, text⟩ := lexeme
  by_cases hkind : kind = .comma
  · subst hkind
    obtain rfl : text = "," := h.text_eq_symbol rfl
    rfl
  · have hother : ',' ∉ text.toList := fun hmem => hkind (h.2.2.1 ',' hmem).symm
    rw [List.count_eq_zero_of_not_mem hother]
    simp [hkind]

/-- A text has as many commas as the lexemes that it spells. -/
theorem Spells.count_comma
    {lexemes : List Lexeme} {text : List Char} (h : Spells lexemes text)
    (hwf : ∀ lexeme ∈ lexemes, lexeme.WellFormed) :
    text.count ',' = lexemes.count (.comma, ",") := by
  have hnone {blanks : List Char} (hblanks : ∀ c ∈ blanks, isBlank c = true) :
      blanks.count ',' = 0 :=
    List.count_eq_zero_of_not_mem fun hmem => by cases hblanks ',' hmem
  induction h with
  | nil hblanks => exact hnone hblanks
  | @cons blanks lexeme lexemes rest hblanks h ih =>
      obtain ⟨hlexeme, hothers⟩ := List.forall_mem_cons.mp hwf
      rw [List.count_append, List.count_append, hnone hblanks, hlexeme.count_comma, ih hothers,
        Nat.zero_add, ← List.count_append, List.singleton_append]

/-- A selector that is not blank has one field more than commas. -/
theorem length_of_read_eq_ok
    {source : String} {fields : List Field} (h : (read source).result = .ok fields)
    (hblank : ∃ c ∈ source.toList, isBlank c = false) :
    fields.length = source.toList.count ',' + 1 := by
  have hparse : FieldSet.parse source = .ok ⟨fields⟩ := by
    rw [FieldSet.parse, h]
    rfl
  rcases FieldSet.blank_or_spelled_of_parse hparse with ⟨hall, -⟩ | ⟨selection, hwf, hspells, hends⟩
  · obtain ⟨c, hc, hother⟩ := hblank
    cases (hall c hc).symm.trans hother
  · have hlength : fields.length = selection.ends.length := by
      simpa using congrArg List.length hends
    rw [hlength, selection.length_ends,
      hspells.count_comma (selection.wellFormed_iff_lexemes.mp hwf)]

/-! ## The stack along a run -/

namespace Machine

variable {machine : Machine}

/-- In front of a name that begins a path there is one path for each group, and behind a slash one more. -/
theorem Sound.length_stack_of_name
    (h : machine.Sound) {mayEnd : Bool} (hcontrol : machine.control = .deciding (.name mayEnd)) :
    (machine.previous = .endOfInput ∨ machine.previous = .leftParen ∨ machine.previous = .comma) ∧
        machine.stack.length = machine.depth ∨
      machine.previous = .forwardSlash ∧ machine.stack.length = machine.depth + 1 := by
  obtain ⟨hfollows, hlength, -⟩ := (h.deciding _ hcontrol).1
  cases mayEnd with
  | true =>
      simp only [Place.Follows] at hfollows
      simp [hlength, hfollows, Place.surplus]
  | false =>
      rcases hfollows with hlast | hlast | hlast <;> simp [hlength, hlast, Place.surplus]

/-- Along the whole run of a machine the stack holds paths each of which continues the one beneath it through at
least one name.  There is one for each open group where a name begins a path, at the start, behind an opening
parenthesis or behind a comma; there is one more behind a slash, behind a name and in front of a closing
parenthesis.  So no path is ever missing and no group is left that is not open: the machine moves until it halts,
and a selector that is read and is not blank has one field more than commas. -/
theorem stack_follows_groups
    (source : String) :
    (∀ count machine, (start source).after count = some machine →
      Nested machine.stack ∧
      (∀ mayEnd, machine.control = .deciding (.name mayEnd) →
        (machine.previous = .endOfInput ∨ machine.previous = .leftParen ∨
            machine.previous = .comma) ∧ machine.stack.length = machine.depth ∨
          machine.previous = .forwardSlash ∧ machine.stack.length = machine.depth + 1) ∧
      (machine.control = .deciding .behindName ∨ machine.control = .deciding .closing →
        machine.stack.length = machine.depth + 1) ∧
      (machine.move? = none → machine.control = .finished ∨ machine.control = .failed)) ∧
    (∃ count last, (start source).after count = some last ∧
      last.reading? = some (read source)) ∧
    ∀ fields, (read source).result = .ok fields → (∃ c ∈ source.toList, isBlank c = false) →
      fields.length = source.toList.count ',' + 1 := by
  refine ⟨fun count machine h => ?_, exists_reading? source, fun fields => length_of_read_eq_ok⟩
  have hsound := Sound.of_after h
  refine ⟨hsound.nested, fun mayEnd => hsound.length_stack_of_name, ?_, hsound.move?_eq_none_iff.mp⟩
  rintro (hcontrol | hcontrol)
  · exact (hsound.deciding _ hcontrol).1.length_stack
  · exact (hsound.deciding _ hcontrol).1.length_stack

example :
    ((start "a(b/c").after 10).map (fun machine => (machine.stack, machine.depth)) =
      some (["a/b/c", "a"], 1) := by
  decide

end Machine

end Selector

end FieldMask
