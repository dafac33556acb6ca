import FieldMask.Proofs.Selector.Derivation

/-!
# Selectors are read by the grammar

A text is accepted exactly when it is blank or spells a well-formed selection, and its fields are then the
ends of the branches of the selection.
-/

namespace FieldMask

namespace Selector

/-- The fields that the ends of a well-formed selection stand for have these ends as their parts. -/
theorem Selection.map_parts_ofNames
    {selection : Selection} (hwf : selection.WellFormed) :
    (selection.ends.map Field.ofNames).map Field.parts = selection.ends := by
  rw [List.map_map]
  refine (List.map_congr_left ?_).trans (List.map_id _)
  intro path hpath
  obtain ⟨branch, hbranch, hend⟩ := mem_endsAll_iff.mp hpath
  obtain ⟨hne, hnames⟩ :=
    isName_of_mem_ends ((wellFormedAll_iff _).mp hwf branch hbranch) (by simp) hend
  have hplain : ∀ name ∈ path, name ≠ "" ∧ '/' ∉ name.toList := by
    intro name hname
    exact ⟨(hnames name hname).1, (hnames name hname).slash_notMem⟩
  exact (Path.segments_ofNames hne hplain).2

/-- A blank text has no lexemes. -/
theorem lexemes_ofString_of_blank
    {source : String} (h : ∀ c ∈ source.toList, isBlank c = true) :
    (Lexer.ofString source).lexemes = [] :=
  Lexer.lexemes_eq_of_spells (.nil h) (by simp) .nil 0

/-- A text that spells a well-formed selection has the lexemes of the selection. -/
theorem Selection.lexemes_ofString
    {selection : Selection} {source : String} (hwf : selection.WellFormed)
    (hspells : Spells selection.lexemes source.toList) :
    (Lexer.ofString source).lexemes = selection.lexemes := by
  obtain ⟨last, completed, hfeed, -⟩ := Parser.accepts_selection selection
  exact Lexer.lexemes_eq_of_spells hspells (selection.wellFormed_iff_lexemes.mp hwf)
    (Parser.isChain_keptApart_of_feed hfeed) 0

end Selector

namespace FieldSet

open Selector

theorem parse_blank
    {source : String} (h : ∀ c ∈ source.toList, isBlank c = true) :
    parse source = .ok empty := by
  rw [parse_eq_ok_iff, lexemes_ofString_of_blank h]
  exact ⟨Parser.initial, [], rfl, Or.inl rfl, rfl⟩

theorem parse_spelled
    {source : String} {selection : Selection} (hwf : selection.WellFormed)
    (hspells : Spells selection.lexemes source.toList) :
    ∃ set, parse source = .ok set ∧ set.fields.map Field.parts = selection.ends := by
  obtain ⟨last, completed, hfeed, hends, hdepth, -, hfields⟩ := Parser.accepts_selection selection
  refine ⟨⟨selection.ends.map Field.ofNames⟩, ?_, selection.map_parts_ofNames hwf⟩
  rw [parse_eq_ok_iff, selection.lexemes_ofString hwf hspells]
  exact ⟨last, completed, hfeed, Or.inr ⟨hends, hdepth⟩, hfields.symm⟩

theorem blank_or_spelled_of_parse
    {source : String} {set : FieldSet} (h : parse source = .ok set) :
    (∀ c ∈ source.toList, isBlank c = true) ∧ set = empty ∨
      ∃ selection : Selection, selection.WellFormed ∧
        Spells selection.lexemes source.toList ∧
        set.fields.map Field.parts = selection.ends := by
  obtain ⟨last, completed, hfeed, hcomplete, hfields⟩ := (parse_eq_ok_iff source set).mp h
  have hspells := (Lexer.ofString source).spells_lexemes
  have hwf : ∀ lexeme ∈ (Lexer.ofString source).lexemes, lexeme.WellFormed :=
    fun _ => Lexer.wellFormed_of_mem_lexemes
  have htraces := Parser.traces_feed Parser.traces_initial hwf hfeed
  rw [List.nil_append, List.nil_append] at htraces
  rcases htraces.exists_selection hcomplete with ⟨hnil, hnone⟩ | ⟨selection, hlexemes, hends⟩
  · left
    rw [hnil] at hspells
    cases hspells with
    | nil hblank => exact ⟨hblank, congrArg FieldSet.mk (hfields.trans hnone)⟩
  · right
    rw [← hlexemes] at hspells hwf
    have hselection := selection.wellFormed_iff_lexemes.mpr hwf
    refine ⟨selection, hselection, hspells, ?_⟩
    rw [hfields, hends, selection.map_parts_ofNames hselection]

/-- A selector is accepted exactly when it is blank or spells a selection of the grammar, and its fields
are then the ends of the branches from left to right. -/
theorem parse_ok_iff_grammar
    (source : String) :
    ((∃ set, parse source = .ok set) ↔
      (∀ c ∈ source.toList, isBlank c = true) ∨
        ∃ selection : Selection, selection.WellFormed ∧ Spells selection.lexemes source.toList) ∧
    ((∀ c ∈ source.toList, isBlank c = true) → parse source = .ok empty) ∧
    ∀ selection : Selection, selection.WellFormed → Spells selection.lexemes source.toList →
      ∃ set, parse source = .ok set ∧ set.fields.map Field.parts = selection.ends := by
  refine ⟨⟨?_, ?_⟩, parse_blank, ?_⟩
  · rintro ⟨set, hset⟩
    rcases blank_or_spelled_of_parse hset with ⟨hblank, -⟩ | ⟨selection, hwf, hspells, -⟩
    · exact Or.inl hblank
    · exact Or.inr ⟨selection, hwf, hspells⟩
  · rintro (hblank | ⟨selection, hwf, hspells⟩)
    · exact ⟨empty, parse_blank hblank⟩
    · obtain ⟨set, hset, -⟩ := parse_spelled hwf hspells
      exact ⟨set, hset⟩
  · intro selection hwf hspells
    exact parse_spelled hwf hspells

end FieldSet

end FieldMask
