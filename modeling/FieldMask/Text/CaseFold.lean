import FieldMask.Text.Uppercase

/-!
# Comparing texts up to case

Folding sends a character to its uppercase form when that is one character and leaves it alone
otherwise.  Two texts agree up to case when they are equally long and their characters, one by one, are
the same or fold to the same: `Straße` agrees with `STRAßE` and not with `STRASSE`.

That is to say that the folded texts are the same (`agree_true`).
-/

namespace FieldMask.Text

/-- The representative of a character among the characters that differ from it in case only. -/
def fold (c : Char) : Char :=
  match uppercaseRuns.find? (·.contains c.toNat) with
  | some run => Char.ofNat (c.toNat + run.shift).toNat
  | none => c

def foldString (text : String) : String :=
  String.ofList (text.toList.map fold)

@[simp]
theorem toList_foldString
    (text : String) :
    (foldString text).toList = text.toList.map fold := by
  simp [foldString]

def sameLetter (c d : Char) : Bool :=
  c == d || fold c == fold d

/-- Agreement of two texts, exact or up to case. -/
def agree (ignoreCase : Bool) (a b : String) : Bool :=
  if ignoreCase then
    a.length == b.length && (a.toList.zip b.toList).all fun (c, d) => sameLetter c d
  else
    a == b

/-- Equal characters need not be folded to find that they fold to the same. -/
theorem sameLetter_iff
    (c d : Char) :
    sameLetter c d = true ↔ fold c = fold d := by
  rw [sameLetter, Bool.or_eq_true, beq_iff_eq, beq_iff_eq]
  exact or_iff_right_of_imp (congrArg fold)

/-- Texts fold to the same when they are equally long and agree character by character.  Without the lengths a
text would agree with whatever goes on behind it. -/
theorem map_fold_eq_iff
    (text other : List Char) :
    text.map fold = other.map fold ↔
      text.length = other.length ∧ (text.zip other).all (fun (c, d) => sameLetter c d) = true := by
  induction text generalizing other with
  | nil => cases other <;> simp
  | cons c text ih =>
      cases other with
      | nil => simp
      | cons d other =>
          rw [List.map_cons, List.map_cons, List.cons.injEq, ih, List.length_cons, List.length_cons,
            Nat.add_right_cancel_iff, List.zip_cons_cons, List.all_cons, Bool.and_eq_true, sameLetter_iff]
          exact and_left_comm

@[simp]
theorem agree_false
    (a b : String) :
    agree false a b = true ↔ a = b := by
  simp [agree]

@[simp]
theorem agree_true
    (a b : String) :
    agree true a b = true ↔ foldString a = foldString b := by
  rw [← String.toList_inj, toList_foldString, toList_foldString, map_fold_eq_iff,
    String.length_toList, String.length_toList, agree, if_pos rfl, Bool.and_eq_true, beq_iff_eq]

theorem agree_refl
    (ignoreCase : Bool) (a : String) :
    agree ignoreCase a a = true := by
  cases ignoreCase <;> simp

end FieldMask.Text
