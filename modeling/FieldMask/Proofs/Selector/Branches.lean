import FieldMask.Proofs.Selector.Lexemes

/-!
# Branches of a selection

Every lexeme of a branch is a name of a path, a slash, or belongs to the group that the path fans out
into, and every end of a branch runs through names of the branch only.  So a branch is well-formed exactly
when its lexemes are, and then all names on the way to its ends can be names.
-/

namespace FieldMask.Selector

/-! ## Branches and their lexemes -/

@[elab_as_elim]
theorem Branch.induction
    {motive : Branch → Prop}
    (mk : ∀ first more group, (∀ branch ∈ group, motive branch) → motive (.mk first more group))
    (branch : Branch) :
    motive branch := by
  obtain ⟨first, more, group⟩ := branch
  apply mk first more group
  intro branch hbranch
  have hsize := List.sizeOf_lt_of_mem hbranch
  exact Branch.induction mk branch
termination_by branch

theorem pathLexemes_append_singleton
    (first : String) (more : List String) (name : String) :
    pathLexemes first (more ++ [name]) =
      pathLexemes first more ++ [(.forwardSlash, "/"), (.identifier, name)] := by
  simp [pathLexemes]

/-- Branches with a comma behind each. -/
def begun (branches : List Branch) : List Lexeme :=
  branches.flatMap fun branch => branch.lexemes ++ [(.comma, ",")]

theorem lexemesAll_comma
    (branch : Branch) (branches : List Branch) :
    lexemesAll [(.comma, ",")] (branch :: branches) =
      (.comma, ",") :: lexemesAll [] (branch :: branches) := by
  simp [lexemesAll]

theorem lexemesAll_append_singleton
    (branches : List Branch) (branch : Branch) :
    lexemesAll [] (branches ++ [branch]) = begun branches ++ branch.lexemes := by
  induction branches with
  | nil => simp [lexemesAll, begun]
  | cons first branches ih =>
      have hcomma : lexemesAll [(.comma, ",")] (branches ++ [branch]) =
          (.comma, ",") :: lexemesAll [] (branches ++ [branch]) := by
        cases branches with
        | nil => exact lexemesAll_comma branch []
        | cons second others => exact lexemesAll_comma second (others ++ [branch])
      simp only [List.cons_append, lexemesAll, List.nil_append, hcomma, ih, begun, List.flatMap_cons,
        List.append_assoc]

theorem endsAll_append
    (above : List String) (branches others : List Branch) :
    endsAll above (branches ++ others) = endsAll above branches ++ endsAll above others := by
  induction branches with
  | nil => rfl
  | cons branch branches ih => simp [endsAll, ih]

theorem lexemes_of_group_ne_nil
    (first : String) (more : List String) {group : List Branch} (h : group ≠ []) :
    (Branch.mk first more group).lexemes =
      pathLexemes first more ++ (.leftParen, "(") :: lexemesAll [] group ++ [(.rightParen, ")")] := by
  cases group with
  | nil => exact absurd rfl h
  | cons branch branches => rfl

theorem ends_of_group_ne_nil
    (above : List String) (first : String) (more : List String) {group : List Branch}
    (h : group ≠ []) :
    (Branch.mk first more group).ends above = endsAll (above ++ first :: more) group := by
  cases group with
  | nil => exact absurd rfl h
  | cons branch branches => rfl

/-! ## Well-formed selections -/

theorem wellFormedAll_iff
    (branches : List Branch) :
    WellFormedAll branches ↔ ∀ branch ∈ branches, branch.WellFormed := by
  induction branches with
  | nil => simp [WellFormedAll]
  | cons branch branches ih => simp [WellFormedAll, ih]

theorem forall_mem_lexemesAll_iff
    {property : Lexeme → Prop} (hcomma : property (.comma, ",")) (separator : List Lexeme)
    (hseparator : ∀ lexeme ∈ separator, property lexeme) (branches : List Branch) :
    (∀ lexeme ∈ lexemesAll separator branches, property lexeme) ↔
      ∀ branch ∈ branches, ∀ lexeme ∈ branch.lexemes, property lexeme := by
  induction branches generalizing separator with
  | nil => simp [lexemesAll]
  | cons branch branches ih =>
      have hrest := ih [(.comma, ",")] (List.forall_mem_singleton.mpr hcomma)
      rw [lexemesAll, List.forall_mem_append, List.forall_mem_append, hrest, List.forall_mem_cons]
      constructor
      · rintro ⟨⟨-, hbranch⟩, hothers⟩
        exact ⟨hbranch, hothers⟩
      · rintro ⟨hbranch, hothers⟩
        exact ⟨⟨hseparator, hbranch⟩, hothers⟩

theorem forall_mem_pathLexemes_iff
    {property : Lexeme → Prop} (hslash : property (.forwardSlash, "/")) (first : String)
    (more : List String) :
    (∀ lexeme ∈ pathLexemes first more, property lexeme) ↔
      ∀ name ∈ first :: more, property (.identifier, name) := by
  rw [pathLexemes, List.forall_mem_cons, List.forall_mem_cons, List.forall_mem_flatMap]
  simp [hslash]

/-- A branch is well-formed when its lexemes are. -/
theorem wellFormed_iff_lexemes
    (branch : Branch) :
    branch.WellFormed ↔ ∀ lexeme ∈ branch.lexemes, lexeme.WellFormed := by
  have hslash : Lexeme.WellFormed (.forwardSlash, "/") := wellFormed_symbol rfl (by simp)
  have hcomma : Lexeme.WellFormed (.comma, ",") := wellFormed_symbol rfl (by simp)
  have hleft : Lexeme.WellFormed (.leftParen, "(") := wellFormed_symbol rfl (by simp)
  have hright : Lexeme.WellFormed (.rightParen, ")") := wellFormed_symbol rfl (by simp)
  induction branch using Branch.induction with
  | mk first more group ih =>
      have hpath := forall_mem_pathLexemes_iff hslash first more
      simp only [wellFormed_identifier_iff] at hpath
      rw [Branch.WellFormed, wellFormedAll_iff, ← hpath]
      by_cases hnil : group = []
      · subst hnil
        simp [Branch.lexemes]
      · have hall := forall_mem_lexemesAll_iff hcomma [] (by simp) group
        rw [lexemes_of_group_ne_nil first more hnil]
        simp only [List.forall_mem_append, List.forall_mem_cons, hall]
        constructor
        · rintro ⟨hnames, hgroup⟩
          exact ⟨⟨hnames, hleft, fun branch hbranch => (ih branch hbranch).mp (hgroup branch hbranch)⟩,
            hright, by simp⟩
        · rintro ⟨⟨hnames, -, hgroup⟩, -⟩
          exact ⟨hnames, fun branch hbranch => (ih branch hbranch).mpr (hgroup branch hbranch)⟩

theorem Selection.wellFormed_iff_lexemes
    (selection : Selection) :
    selection.WellFormed ↔ ∀ lexeme ∈ selection.lexemes, lexeme.WellFormed := by
  have hcomma : Lexeme.WellFormed (.comma, ",") := wellFormed_symbol rfl (by simp)
  rw [WellFormed, wellFormedAll_iff, lexemes,
    forall_mem_lexemesAll_iff hcomma [] (by simp) selection.branches]
  simp only [Selector.wellFormed_iff_lexemes]

theorem mem_endsAll_iff
    {names path : List String} {branches : List Branch} :
    path ∈ endsAll names branches ↔ ∃ branch ∈ branches, path ∈ branch.ends names := by
  induction branches with
  | nil => simp [endsAll]
  | cons branch branches ih => simp [endsAll, ih]

/-- All names on the way to an end of a well-formed branch can be names. -/
theorem isName_of_mem_ends
    {branch : Branch} (hwf : branch.WellFormed) {names path : List String}
    (hnames : ∀ name ∈ names, IsName name) (h : path ∈ branch.ends names) :
    path ≠ [] ∧ ∀ name ∈ path, IsName name := by
  induction branch using Branch.induction generalizing names with
  | mk first more group ih =>
      rw [Branch.WellFormed, wellFormedAll_iff] at hwf
      have habove : ∀ name ∈ names ++ first :: more, IsName name :=
        List.forall_mem_append.mpr ⟨hnames, hwf.1⟩
      by_cases hnil : group = []
      · subst hnil
        obtain rfl : path = names ++ first :: more := by simpa [Branch.ends] using h
        exact ⟨by simp, habove⟩
      · rw [ends_of_group_ne_nil names first more hnil, mem_endsAll_iff] at h
        obtain ⟨branch, hbranch, hpath⟩ := h
        exact ih branch hbranch (hwf.2 branch hbranch) habove hpath

theorem IsName.slash_notMem
    {name : String} (h : IsName name) :
    '/' ∉ name.toList := by
  intro hmem
  have hslash := (isNameChar_iff '/').mp (h.2 '/' hmem)
  simp at hslash

end FieldMask.Selector
