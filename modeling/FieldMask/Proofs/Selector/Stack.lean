import FieldMask.Proofs.Paths
import FieldMask.Proofs.Selector.Lexemes
import FieldMask.Proofs.Selector.Moves

/-!
# What stands on the stack

Each path on the stack of a machine continues the one beneath it through at least one name.  There is one path
for each open group where a name begins a path, and one more everywhere else: the path that a slash leaves
unfinished, that a name has just ended, or whose group has just been closed.  Every move keeps this up
(`Machine.Sound.of_moves`).

A path is taken from the stack only where there is that one more, so the stack is never empty then, and a sound
machine moves until it halts (`Machine.Sound.move?_eq_none_iff`).
-/

namespace FieldMask.Selector

theorem Lexer.isName_pull
    {lexer : Lexer} (h : lexer.pull.1.kind = .identifier) :
    IsName lexer.pull.1.text := by
  have hrest : lexer.rest ≠ [] := by
    intro hnil
    rw [pull_kind, hnil] at h
    cases h
  have hfits := pull_fits hrest
  rw [h] at hfits
  exact (wellFormed_identifier_iff _).mp ⟨rfl, hfits⟩

/-! ## Paths on top of each other -/

/-- Stacks of paths, innermost first, each of which is the one beneath it, if there is any, and at least one
more name. -/
inductive Nested : List String → Prop
  | nil : Nested []
  | bottom {names : List String} (hne : names ≠ []) (hnames : ∀ name ∈ names, IsName name) :
      Nested ["/".intercalate names]
  | above {names : List String} {base : String} {stack : List String} (h : Nested (base :: stack))
      (hne : names ≠ []) (hnames : ∀ name ∈ names, IsName name) :
      Nested ((base ++ "/" ++ "/".intercalate names) :: base :: stack)

namespace Nested

theorem tail
    {path : String} {stack : List String} (h : Nested (path :: stack)) :
    Nested stack := by
  cases h with
  | bottom => exact .nil
  | above h => exact h

theorem singleton
    {name : String} (hname : IsName name) :
    Nested [name] := by
  simpa using Nested.bottom (List.cons_ne_nil name []) (by simpa using hname)

theorem begin
    {base name : String} {stack : List String} (h : Nested (base :: stack)) (hname : IsName name) :
    Nested ((base ++ "/" ++ name) :: base :: stack) := by
  simpa using h.above (List.cons_ne_nil name []) (by simpa using hname)

/-- One more name may come behind the names of the innermost path. -/
theorem extend
    {base name : String} {stack : List String} (h : Nested (base :: stack)) (hname : IsName name) :
    Nested ((base ++ "/" ++ name) :: stack) := by
  have hjoin {names : List String} (hne : names ≠ []) :
      "/".intercalate (names ++ [name]) = "/".intercalate names ++ "/" ++ name := by
    rw [String.intercalate_append_of_ne_nil hne (List.cons_ne_nil name []),
      String.intercalate_singleton]
  have hmore {names : List String} (hnames : ∀ name ∈ names, IsName name) :
      ∀ other ∈ names ++ [name], IsName other :=
    List.forall_mem_append.mpr ⟨hnames, by simpa using hname⟩
  cases h with
  | bottom hne hnames =>
      rw [← hjoin hne]
      exact .bottom (by simp) (hmore hnames)
  | @above names below stack h hne hnames =>
      have hpath : below ++ "/" ++ "/".intercalate names ++ "/" ++ name =
          below ++ "/" ++ "/".intercalate (names ++ [name]) := by
        rw [hjoin hne]
        simp only [String.append_assoc]
      rw [hpath]
      exact .above h (by simp) (hmore hnames)

/-- A path of names is not the path of the root. -/
theorem ne_root
    {path : String} {stack : List String} (h : Nested (path :: stack)) :
    path ≠ Path.root := by
  generalize hpaths : path :: stack = paths at h
  induction h generalizing path stack with
  | nil => cases hpaths
  | @bottom names hne hnames =>
      obtain ⟨rfl, rfl⟩ := List.cons.inj hpaths
      have hhead : names.head? ≠ some "" := fun h => (hnames "" (List.mem_of_head? h)).1 rfl
      rw [← Path.ofNames_eq_intercalate_of_head?_ne hhead]
      exact Path.ofNames_ne_root hne hhead
  | @above names base stack h hne hnames ih =>
      obtain ⟨rfl, rfl⟩ := List.cons.inj hpaths
      rw [← Path.child_of_ne_root _ (ih rfl)]
      exact Path.child_ne_root _ (ih rfl)

end Nested

/-! ## Sound machines -/

namespace Place

/-- The kinds of token behind which a machine is at a place. -/
def Follows (place : Place) (last : Kind) : Prop :=
  match place with
  | .name true => last = .endOfInput
  | .name false => last = .forwardSlash ∨ last = .leftParen ∨ last = .comma
  | .behindName => last = .identifier
  | .closing => last = .identifier ∨ last = .rightParen
  | .behindClosing => last = .rightParen

/-- How many paths more than groups are open at a place behind a token of this kind. -/
def surplus (place : Place) (last : Kind) : Nat :=
  match place with
  | .name _ => if last = .forwardSlash then 1 else 0
  | .behindName | .closing | .behindClosing => 1

/-- At a place behind a token of this kind the stack and the number of open groups are as they should be. -/
structure Stands (place : Place) (last : Kind) (stack : List String) (depth : Nat) : Prop where
  follows : place.Follows last
  length_stack : stack.length = depth + place.surplus last
  depth_of_start : place = .name true → depth = 0

end Place

namespace Machine

/-- What every machine of a run keeps up. -/
structure Sound (machine : Machine) : Prop where
  nested : Nested machine.stack
  isName : machine.current.kind = .identifier → IsName machine.current.text
  current_ne_whitespace : machine.current.kind ≠ .whitespace
  seeking : ∀ place, machine.control = .seeking place →
    place ≠ .closing ∧ place.Stands machine.current.kind machine.stack machine.depth
  deciding : ∀ place, machine.control = .deciding place →
    place.Stands machine.previous machine.stack machine.depth ∧
      (place = .closing → machine.current.kind = .rightParen)

namespace Sound

theorem start
    (source : String) :
    (Machine.start source).Sound where
  nested := .nil
  isName := nofun
  current_ne_whitespace := nofun
  seeking := by
    rintro place ⟨⟩
    exact ⟨nofun, rfl, rfl, fun _ => rfl⟩
  deciding := nofun

variable {machine next : Machine}

/-- A sound machine may go on to look for the token behind the current one. -/
theorem of_seeking
    (h : machine.Sound) {place : Place} (hcurrent : next.current = machine.current)
    (hcontrol : next.control = .seeking place) (hplace : place ≠ .closing)
    (hnested : Nested next.stack) (hstands : place.Stands machine.current.kind next.stack next.depth) :
    next.Sound where
  nested := hnested
  isName := hcurrent ▸ h.isName
  current_ne_whitespace := hcurrent ▸ h.current_ne_whitespace
  seeking := by
    intro other hother
    obtain rfl : place = other := Control.seeking.inj (hcontrol.symm.trans hother)
    exact ⟨hplace, hcurrent ▸ hstands⟩
  deciding := by
    intro other hother
    cases hcontrol.symm.trans hother

/-- A sound machine may halt at the current token. -/
theorem of_halted
    (h : machine.Sound) (hcurrent : next.current = machine.current)
    (hcontrol : next.control = .finished ∨ next.control = .failed) (hnested : Nested next.stack) :
    next.Sound where
  nested := hnested
  isName := hcurrent ▸ h.isName
  current_ne_whitespace := hcurrent ▸ h.current_ne_whitespace
  seeking := by
    intro other hother
    rcases hcontrol with hcontrol | hcontrol <;> cases hcontrol.symm.trans hother
  deciding := by
    intro other hother
    rcases hcontrol with hcontrol | hcontrol <;> cases hcontrol.symm.trans hother

/-- Where one path more than groups is open, taking it leaves one path for each group. -/
theorem of_take?
    (h : machine.Sound) {asField : Bool} (htake : machine.take? asField = some next)
    (hlength : machine.stack.length = machine.depth + 1) :
    next.current = machine.current ∧ next.depth = machine.depth ∧ Nested next.stack ∧
      next.stack.length = machine.depth := by
  obtain ⟨path, stack, hstack, rfl⟩ := take?_eq_some_iff.mp htake
  have hnested := h.nested
  rw [hstack] at hnested hlength
  exact ⟨rfl, rfl, hnested.tail, by simpa using hlength⟩

theorem length_stack_of_isBehind
    (h : machine.Sound) {place : Place} (hcontrol : machine.control = .deciding place)
    (hplace : place.IsBehind) :
    machine.stack.length = machine.depth + 1 := by
  have hlength := (h.deciding place hcontrol).1.length_stack
  rcases hplace with rfl | rfl <;> exact hlength

/-- With no path open there is none for a slash to leave unfinished. -/
theorem previous_ne_slash
    (h : machine.Sound) {mayEnd : Bool} (hcontrol : machine.control = .deciding (.name mayEnd))
    (hstack : machine.stack = []) :
    machine.previous ≠ .forwardSlash := by
  intro hslash
  have hlength := (h.deciding _ hcontrol).1.length_stack
  simp [hstack, Place.surplus, hslash] at hlength

/-- Outside all groups only a slash leaves a path open in front of a name. -/
theorem previous_eq_slash
    (h : machine.Sound) {mayEnd : Bool} (hcontrol : machine.control = .deciding (.name mayEnd))
    (hstack : machine.stack ≠ [])
    (houtside : ¬(0 < machine.depth ∧ machine.previous ≠ .forwardSlash)) :
    machine.previous = .forwardSlash := by
  by_contra hslash
  have hlength := (h.deciding _ hcontrol).1.length_stack
  have hdepth : machine.depth = 0 := by
    by_contra hne
    exact houtside ⟨Nat.pos_of_ne_zero hne, hslash⟩
  simp [Place.surplus, hslash, hdepth, hstack] at hlength

/-- Every move keeps a machine sound. -/
theorem of_moves
    (h : machine.Sound) (hmoves : machine.Moves next) :
    next.Sound := by
  cases hmoves with
  | blank place hcontrol hblank =>
      exact ⟨h.nested, h.isName, h.current_ne_whitespace, h.seeking, h.deciding⟩
  | find place hcontrol hfound =>
      refine ⟨h.nested, Lexer.isName_pull, hfound, nofun, ?_⟩
      rintro _ ⟨⟩
      obtain ⟨hplace, hstands⟩ := h.seeking place hcontrol
      exact ⟨hstands, fun hclosing => absurd hclosing hplace⟩
  | alone mayEnd hcontrol hkind hstack =>
      have hlength := (h.deciding _ hcontrol).1.length_stack
      rw [hstack, List.length_nil] at hlength
      refine h.of_seeking rfl rfl nofun (.singleton (h.isName hkind)) ⟨hkind, ?_, nofun⟩
      simp only [seek, List.length_singleton, Place.surplus]
      omega
  | begin mayEnd base stack hcontrol hkind hstack hinside =>
      have hlength := (h.deciding _ hcontrol).1.length_stack
      have hnested := h.nested
      rw [hstack] at hlength hnested
      rw [Place.surplus, if_neg hinside.2] at hlength
      refine h.of_seeking rfl rfl nofun (hnested.begin (h.isName hkind)) ⟨hkind, ?_, nofun⟩
      simpa [seek, Place.surplus] using hlength
  | extend mayEnd base stack hcontrol hkind hstack houtside =>
      -- outside all groups a path is open only behind a slash, so it is this path that goes on
      have hslash := h.previous_eq_slash hcontrol (by simp [hstack]) houtside
      have hlength := (h.deciding _ hcontrol).1.length_stack
      have hnested := h.nested
      rw [hstack] at hlength hnested
      refine h.of_seeking rfl rfl nofun (hnested.extend (h.isName hkind)) ⟨hkind, ?_, nofun⟩
      simpa [seek, Place.surplus, hslash] using hlength
  | slash hcontrol hkind =>
      have hlength := (h.deciding _ hcontrol).1.length_stack
      refine h.of_seeking rfl rfl nofun h.nested ⟨Or.inl hkind, ?_, nofun⟩
      simpa [seek, Place.surplus, hkind] using hlength
  | group hcontrol hkind =>
      have hlength := (h.deciding _ hcontrol).1.length_stack
      refine h.of_seeking rfl rfl nofun h.nested ⟨Or.inr (Or.inl hkind), ?_, nofun⟩
      simpa [seek, Place.surplus, hkind] using hlength
  | turn place hcontrol hplace hkind =>
      have hstands := (h.deciding place hcontrol).1
      refine ⟨h.nested, h.isName, h.current_ne_whitespace, nofun, ?_⟩
      rintro _ ⟨⟩
      refine ⟨⟨?_, h.length_stack_of_isBehind hcontrol hplace, nofun⟩, fun _ => hkind⟩
      rcases hplace with rfl | rfl
      · exact Or.inl hstands.follows
      · exact Or.inr hstands.follows
  | comma place rest hcontrol hplace hkind htake =>
      obtain ⟨hcurrent, hdepth, hnested, hlength⟩ :=
        h.of_take? htake (h.length_stack_of_isBehind hcontrol hplace)
      refine h.of_seeking hcurrent rfl nofun hnested ⟨Or.inr (Or.inr hkind), ?_, nofun⟩
      simpa [seek, Place.surplus, hkind, hdepth] using hlength
  | close rest depth hcontrol htake hinside =>
      obtain ⟨hstands, hkind⟩ := h.deciding .closing hcontrol
      obtain ⟨hcurrent, -, hnested, hlength⟩ := h.of_take? htake hstands.length_stack
      refine h.of_seeking hcurrent rfl nofun hnested ⟨hkind rfl, ?_, nofun⟩
      simpa [seek, Place.surplus, hinside] using hlength
  | closeOutside rest hcontrol htake houtside =>
      obtain ⟨hcurrent, -, hnested, -⟩ :=
        h.of_take? htake (h.deciding .closing hcontrol).1.length_stack
      exact h.of_halted hcurrent (Or.inr rfl) hnested
  | finishEmpty hcontrol hkind hdepth => exact h.of_halted rfl (Or.inl rfl) h.nested
  | finishName rest hcontrol hkind hdepth htake =>
      obtain ⟨hcurrent, -, hnested, -⟩ :=
        h.of_take? htake (h.length_stack_of_isBehind hcontrol (Or.inl rfl))
      exact h.of_halted hcurrent (Or.inl rfl) hnested
  | finishClosing hcontrol hkind hdepth => exact h.of_halted rfl (Or.inl rfl) h.nested
  | fail place hcontrol hrefuses => exact h.of_halted rfl (Or.inr rfl) h.nested

/-- Every machine of a run is sound. -/
theorem of_after
    {source : String} {count : Nat} (h : (Machine.start source).after count = some machine) :
    machine.Sound :=
  after_induction (motive := fun _ machine => machine.Sound) (start source)
    (fun _ _ _ hsound hmoves => hsound.of_moves hmoves) h

/-- What no move of a sound machine changes stays as it is at the start. -/
theorem eq_of_after
    {α : Type} {value : Machine → α} {source : String} {count : Nat}
    (hkeeps : ∀ machine next : Machine, machine.Sound → machine.Moves next →
      value next = value machine)
    (h : (Machine.start source).after count = some machine) :
    value machine = value (Machine.start source) := by
  have hboth : machine.Sound ∧ value machine = value (Machine.start source) :=
    after_induction
      (motive := fun _ machine => machine.Sound ∧ value machine = value (Machine.start source))
      ⟨.start source, rfl⟩
      (fun _ _ _ h hmoves => ⟨h.1.of_moves hmoves, (hkeeps _ _ h.1 hmoves).trans h.2⟩) h
  exact hboth.2

/-- Where a path is taken from the stack there is one. -/
theorem stack_ne_nil
    (h : machine.Sound) (htakes : machine.TakesPath) :
    machine.stack ≠ [] := by
  have hlength : machine.stack.length = machine.depth + 1 := by
    rcases htakes with hcontrol | ⟨⟨place, hplace, hcontrol⟩, -⟩ | ⟨hcontrol, -⟩
    · exact (h.deciding .closing hcontrol).1.length_stack
    · exact h.length_stack_of_isBehind hcontrol hplace
    · exact h.length_stack_of_isBehind hcontrol (Or.inl rfl)
  rintro hnil
  simp [hnil] at hlength

/-- A sound machine is never stuck. -/
theorem move?_eq_none_iff
    (h : machine.Sound) :
    machine.move? = none ↔ machine.control = .finished ∨ machine.control = .failed := by
  rw [Machine.move?_eq_none_iff]
  have hstuck : ¬(machine.TakesPath ∧ machine.stack = []) := fun hstuck =>
    h.stack_ne_nil hstuck.1 hstuck.2
  simp [hstuck]

end Sound

end Machine

end FieldMask.Selector
