import FishNav.Proofs.Script.Resolution

/-!
# Resolution of calls

The name of a command refers to a function of that name, wherever in the document it is, and never
to a variable (`find?_call`). If it is not itself the name of a function, it refers to the last
function of its name before it that can be seen from it: every function around that one is around
the call too. If there is none, it refers to the first function of its name in the document.
-/
namespace FishNav.Script

open Node (Descends)

variable {source : String} {n f g name : Node} {s : Symbol}

/-- A symbol at the name of a command is that of a function. -/
theorem Call.function_of_selection (call : Call source n)
    (member : s ∈ Symbol.flatten (root source).symbols) (same : s.selection = n.range) :
    s.kind = .function := by
  obtain ⟨m, way, own⟩ := Node.exists_of_mem_flatten member
  rcases Node.symbol?_cases own with ⟨-, name, symbol⟩ | ⟨-, definition, rfl⟩
  · exact symbol.kind
  · obtain rfl := eq_of_definition_range way definition call.inside call.site.start_lt_stop same
    simp [call.not_definition] at definition

/-! ### Functions of a name -/

/-- `f` is a function with the name `text`, which stands at `name`. -/
structure Defines (source text : String) (f name : Node) : Prop where
  member : f ∈ (tree source).nodes
  function : f.kind = .functionDefinition
  named : f.firstNamedChild? = some name
  text : name.text = text

/-- The call `n` can see the function `f`, which has its name and stands before it: every function
around `f` is around `n`. -/
structure Reaches (source : String) (n f name : Node) : Prop extends
    Defines source n.text f name where
  before : name.start < n.start
  around : ∀ g ∈ f.ancestors, g.kind = .functionDefinition → g ∈ n.ancestors

/-- `f` is the last of the functions that the call `n` can see. -/
structure Latest (source : String) (n f name : Node) : Prop extends Reaches source n f name where
  latest : ∀ g m, Reaches source n g m → g ≠ f → m.start < name.start

/-- `f` is the first function of its name in the document. -/
structure Earliest (source word : String) (f name : Node) : Prop extends
    Defines source word f name where
  earliest : ∀ g m, Defines source word g m → g ≠ f → name.start < m.start

/-- Without what is inside of it, the symbol of a function depends on its name and its comments
only. -/
theorem ofFunction?_leaf (function : f.kind = .functionDefinition) (own : f.symbol? = some s) :
    Symbol.ofFunction? f [] = some s.leaf := by
  rw [Node.symbol?, function, Kind.isDefinition, if_pos rfl, Symbol.ofFunction?,
    Option.map_eq_some_iff] at own
  obtain ⟨name, first, rfl⟩ := own
  rw [Symbol.ofFunction?, first]
  rfl

namespace Defines

variable {text : String}

/-- Every function is in the outline, with the place of its name. -/
theorem exists_symbol (defines : Defines source text f name) :
    ∃ s ∈ Symbol.flatten (root source).symbols, f.symbol? = some s ∧ s.kind = .function ∧
      s.name = text ∧ s.selection = name.range := by
  obtain ⟨s, own, symbol⟩ := Node.symbol?_of_function defines.function defines.named
  exact ⟨s, mem_flatten_of_descends .here (mem_nodes_iff.mp defines.member) own, own, symbol.kind,
    by rw [symbol.text, defines.text], symbol.selection⟩

/-- Every function symbol of the outline comes from a function of the script. -/
theorem of_flatten (member : s ∈ Symbol.flatten (root source).symbols)
    (function : s.kind = .function) (named : s.name = text) :
    ∃ f name, Defines source text f name ∧ f.symbol? = some s ∧ s.selection = name.range := by
  obtain ⟨f, way, own⟩ := Node.exists_of_mem_flatten member
  rcases Node.symbol?_cases own with ⟨kind, name, symbol⟩ | ⟨-, -, rfl⟩
  · exact ⟨f, name, ⟨mem_nodes_iff.mpr way, kind, symbol.named, symbol.text ▸ named⟩, own,
      symbol.selection⟩
  · cases function

theorem exists_leaf (defines : Defines source text f name) :
    ∃ s, Symbol.ofFunction? f [] = some s := by
  obtain ⟨s, -, own, -⟩ := defines.exists_symbol
  exact ⟨s.leaf, ofFunction?_leaf defines.function own⟩

/-- The symbol of a function without what is inside of it. -/
theorem symbol_eq (defines : Defines source text f name)
    (leaf : Symbol.ofFunction? f [] = some s) :
    s.kind = .function ∧ s.name = text ∧ s.selection = name.range ∧
      ∃ t ∈ Symbol.flatten (root source).symbols, s = t.leaf := by
  obtain ⟨t, member, own, function, named, selection⟩ := defines.exists_symbol
  rw [ofFunction?_leaf defines.function own, Option.some.injEq] at leaf
  subst leaf
  exact ⟨function, named, selection, t, member, rfl⟩

/-- Two functions of one name do not have their names at one place. -/
theorem start_ne {name' : Node} (left : Defines source text f name)
    (right : Defines source text g name') (other : f ≠ g) : name.start ≠ name'.start := by
  obtain ⟨s, -, own, -, -, selection⟩ := left.exists_symbol
  obtain ⟨t, -, own', -, -, selection'⟩ := right.exists_symbol
  intro same
  apply other
  apply eq_of_selection_start (mem_nodes_iff.mp left.member) (mem_nodes_iff.mp right.member)
    own own'
  rw [selection, selection']
  exact same

end Defines

/-! ### Candidates -/

/-- The candidates for a call are the symbols of the functions it reaches. -/
theorem mem_candidates_call_iff (call : Call source n) :
    s ∈ Definition.candidates (root source) n ↔
      ∃ f name, Reaches source n f name ∧ Symbol.ofFunction? f [] = some s := by
  have expected : Definition.expectedKind? n = some .function := by
    simp [Definition.expectedKind?, call.name]
  rw [Definition.candidates, expected, List.mem_filter, mem_visible_iff call.use]
  simp only [Option.all_some, Bool.and_eq_true, beq_iff_eq, Range.precedes, decide_eq_true_eq]
  constructor
  · rintro ⟨⟨scope, above, bounds, t, member, rfl⟩, ⟨named, kind⟩, before⟩
    obtain ⟨f, exposed, own⟩ := Node.mem_inner_iff.mp member
    have insideS := (call.inside.of_mem_ancestors above).1
    have inside := insideS.trans exposed.descends
    rcases Node.symbol?_cases own with ⟨function, name, symbol⟩ | ⟨-, -, rfl⟩
    · have lives := findAbove?_of_exposed insideS bounds exposed (named_of_symbol? own)
      refine ⟨f, name, ⟨⟨mem_nodes_iff.mpr inside, function, symbol.named, ?_⟩, ?_, ?_⟩,
        ofFunction?_leaf function own⟩
      · exact symbol.text ▸ named
      · have start : t.selection.start = name.start := by rw [symbol.selection]; rfl
        exact start ▸ before
      · intro g higher kind
        rcases Node.eq_or_above_of_findAbove? lives higher (bounds_iff.mpr (Or.inl kind)) with
          rfl | higher
        · exact above
        · exact Node.mem_ancestors_trans higher above
    · cases kind
  · rintro ⟨f, name, reaches, leaf⟩
    have inside := mem_nodes_iff.mp reaches.member
    obtain ⟨t, -, own, -⟩ := reaches.exists_symbol
    obtain ⟨function, named, selection, -⟩ := reaches.symbol_eq leaf
    rw [ofFunction?_leaf reaches.function own, Option.some.injEq] at leaf
    -- the function lives in the nearest scope above it, and that is above the call too
    obtain ⟨scope, lives⟩ := exists_scope inside (by simp [reaches.function])
    have bounds : scope.bounds = true := List.find?_some lives
    have above : scope ∈ n.ancestors := by
      have higher := List.mem_of_find?_eq_some lives
      rcases bounds_iff.mp bounds with kind | program
      · exact reaches.around scope higher kind
      · rw [eq_root_of_program (inside.of_mem_ancestors higher).1 program]
        rcases call.inside.eq_or_mem_ancestors with rfl | above
        · exact absurd (stands_root source).1 call.site.program
        · exact above
    have exposed := exposed_of_findAbove? inside lives
    refine ⟨⟨scope, above, bounds, t, Node.mem_inner_iff.mpr ⟨f, exposed, own⟩, leaf⟩,
      ⟨named, function⟩, ?_⟩
    rw [selection]
    exact reaches.before

/-! ### The first function of a name -/

/-- Without candidates a call refers to the first function of its name in the document. -/
theorem fallback?_call (call : Call source n) :
    (∃ f name, Earliest source n.text f name ∧
        Definition.fallback? (root source) n = Symbol.ofFunction? f []) ∨
      (∀ f name, ¬ Defines source n.text f name) ∧
        Definition.fallback? (root source) n = none := by
  have expected : Definition.expectedKind? n = some .function := by
    simp [Definition.expectedKind?, call.name]
  rw [Definition.fallback?, expected, if_neg (by simp)]
  cases found : (Symbol.flatten (root source).symbols).find?
      fun s => s.isFunction && s.name == n.text with
  | none =>
    refine Or.inr ⟨fun f name defines => ?_, rfl⟩
    obtain ⟨s, member, -, function, named, -⟩ := defines.exists_symbol
    have other := List.find?_eq_none.mp found s member
    simp [Symbol.isFunction, function, named] at other
  | some s =>
    obtain ⟨holds, front, back, split, others⟩ := List.find?_eq_some_iff_append.mp found
    simp only [Symbol.isFunction, Bool.and_eq_true, beq_iff_eq] at holds
    obtain ⟨f, name, defines, own, selection⟩ :=
      Defines.of_flatten (List.mem_of_find?_eq_some found) holds.1 holds.2
    refine Or.inl ⟨f, name, ⟨defines, fun g m another other => ?_⟩, ?_⟩
    · -- another function of the name comes later in the flattened outline
      obtain ⟨t, member, own', function, named, selection'⟩ := another.exists_symbol
      have ordered := @flatten_ordered source (root source) .here
      rw [split] at member ordered
      rcases List.mem_append.mp member with before | after
      · have earlier := others t before
        simp [Symbol.isFunction, function, named] at earlier
      · have later := (List.pairwise_cons.mp (List.pairwise_append.mp ordered).2.1).1
        rcases List.mem_cons.mp after with rfl | after
        · exact absurd (congrArg Range.start (selection.symm.trans selection'))
            (defines.start_ne another (Ne.symm other))
        · have order := later t after
          rwa [selection, selection'] at order
    · rw [Option.map_some, ofFunction?_leaf defines.function own]

/-! ### What a call refers to -/

/-- The latest candidate for a call is the last function that it can see. -/
theorem latest?_call (call : Call source n) :
    (∃ f name, Latest source n f name ∧
        Definition.latest? (Definition.candidates (root source) n) = Symbol.ofFunction? f []) ∨
      (∀ f name, ¬ Reaches source n f name) ∧
        Definition.latest? (Definition.candidates (root source) n) = none := by
  cases found : Definition.latest? _ with
  | none =>
    refine Or.inr ⟨fun f name reaches => ?_, rfl⟩
    obtain ⟨s, leaf⟩ := reaches.exists_leaf
    have candidate := (mem_candidates_call_iff call).mpr ⟨f, name, reaches, leaf⟩
    rw [Definition.latest?_eq_none_iff.mp found] at candidate
    cases candidate
  | some s =>
    obtain ⟨candidate, greatest⟩ := Definition.latest?_spec found
    obtain ⟨f, name, reaches, leaf⟩ := (mem_candidates_call_iff call).mp candidate
    refine Or.inl ⟨f, name, ⟨reaches, fun g m another other => ?_⟩, leaf.symm⟩
    obtain ⟨t, leaf'⟩ := another.exists_leaf
    obtain ⟨-, -, selection, -⟩ := reaches.symbol_eq leaf
    obtain ⟨-, -, selection', -⟩ := another.symbol_eq leaf'
    have order := greatest t ((mem_candidates_call_iff call).mpr ⟨g, m, another, leaf'⟩)
    rw [selection, selection'] at order
    exact lt_of_le_of_ne order (another.start_ne reaches.toDefines other)

/-- A call refers to the function whose name it is, or to the last one that it can see, and failing
these to the first one of its name in the document. -/
theorem find?_call_cases (call : Call source n) (other : n.text ≠ "argv") :
    (∃ f name, Defines source n.text f name ∧ name.range = n.range ∧
        Definition.find? (root source) n = Symbol.ofFunction? f []) ∨
      (∃ f name, Latest source n f name ∧
        Definition.find? (root source) n = Symbol.ofFunction? f []) ∨
      (∀ f name, ¬ Reaches source n f name) ∧
        ((∃ f name, Earliest source n.text f name ∧
            Definition.find? (root source) n = Symbol.ofFunction? f []) ∨
          (∀ f name, ¬ Defines source n.text f name) ∧
            Definition.find? (root source) n = none) := by
  rcases @Definition.find?_cases (root source) n other with
    ⟨s, member, selection, named, found⟩ | ⟨-, found⟩
  · have function := call.function_of_selection member selection
    obtain ⟨f, name, defines, own, place⟩ := Defines.of_flatten member function named
    refine Or.inl ⟨f, name, defines, place.symm.trans selection, ?_⟩
    rw [found, ofFunction?_leaf defines.function own]
  · refine Or.inr ?_
    rw [found]
    rcases latest?_call call with ⟨f, name, latest, same⟩ | ⟨nothing, none⟩
    · obtain ⟨t, leaf⟩ := latest.exists_leaf
      refine Or.inl ⟨f, name, latest, ?_⟩
      rw [same, leaf, Option.some_or]
    · rw [none, Option.none_or]
      exact Or.inr ⟨nothing, fallback?_call call⟩

/-- A call refers to a function of its name, or there is none. -/
theorem find?_call_defines (call : Call source n) (other : n.text ≠ "argv") :
    (∃ f name, Defines source n.text f name ∧
        Definition.find? (root source) n = Symbol.ofFunction? f []) ∨
      (∀ f name, ¬ Defines source n.text f name) ∧
        Definition.find? (root source) n = none := by
  rcases find?_call_cases call other with ⟨f, name, defines, -, found⟩ |
    ⟨f, name, latest, found⟩ | ⟨-, ⟨f, name, earliest, found⟩ | nothing⟩
  · exact Or.inl ⟨f, name, defines, found⟩
  · exact Or.inl ⟨f, name, latest.toDefines, found⟩
  · exact Or.inl ⟨f, name, earliest.toDefines, found⟩
  · exact Or.inr nothing

/-- The name of a command refers to a function of that name, if there is one. Unless it stands at
such a name itself, this is the last one before it that it can see, or else the first one. -/
theorem find?_call (source : String) (r n : Node) (top : (tree source).root? = some r)
    (member : n ∈ (tree source).nodes) (command : n.isCommandName = true)
    (other : n.text ≠ "argv") :
    ((Definition.find? r n).isSome = true ↔ ∃ f name, Defines source n.text f name) ∧
      (∀ s, Definition.find? r n = some s →
        s.kind = .function ∧ s.name = n.text ∧ ∃ t ∈ Symbol.flatten r.symbols, s = t.leaf) ∧
      ((∀ f name, Defines source n.text f name → name.range ≠ n.range) →
        (∃ f name, Latest source n f name ∧ Definition.find? r n = Symbol.ofFunction? f []) ∨
          (∀ f name, ¬ Reaches source n f name) ∧
            ((∃ f name, Earliest source n.text f name ∧
                Definition.find? r n = Symbol.ofFunction? f []) ∨
              ∀ f name, ¬ Defines source n.text f name)) := by
  obtain rfl : root source = r := Option.some.inj ((root?_tree source).symm.trans top)
  have call : Call source n := ⟨mem_nodes_iff.mp member, command⟩
  refine ⟨?_, ?_, ?_⟩
  · rcases find?_call_defines call other with ⟨f, name, defines, found⟩ | ⟨nothing, none⟩
    · obtain ⟨t, leaf⟩ := defines.exists_leaf
      rw [found, leaf]
      exact ⟨fun _ => ⟨f, name, defines⟩, fun _ => rfl⟩
    · rw [none]
      exact ⟨fun absent => (Bool.false_ne_true absent).elim,
        fun ⟨f, name, defines⟩ => (nothing f name defines).elim⟩
  · intro s refers
    rcases find?_call_defines call other with ⟨f, name, defines, found⟩ | ⟨-, none⟩
    · obtain ⟨function, named, -, outline⟩ := defines.symbol_eq (found.symm.trans refers)
      exact ⟨function, named, outline⟩
    · cases none.symm.trans refers
  · intro elsewhere
    rcases find?_call_cases call other with ⟨f, name, defines, same, -⟩ | latest |
      ⟨unreached, first | ⟨nothing, -⟩⟩
    · exact absurd same (elsewhere f name defines)
    · exact Or.inl latest
    · exact Or.inr ⟨unreached, Or.inl first⟩
    · exact Or.inr ⟨unreached, Or.inr nothing⟩

/-- A call before all functions of its name refers to the first one, also inside of another. -/
theorem find?_call_ahead :
    ∃ r n f name, (tree "a\nfunction g\nfunction a\nend\nend\nfunction a\nend").root? = some r ∧
      n ∈ (tree "a\nfunction g\nfunction a\nend\nend\nfunction a\nend").nodes ∧
      n.isCommandName = true ∧ n.text ≠ "argv" ∧
      (∀ g m, ¬ Reaches "a\nfunction g\nfunction a\nend\nend\nfunction a\nend" n g m) ∧
      Earliest "a\nfunction g\nfunction a\nend\nend\nfunction a\nend" n.text f name ∧
      name.start = ⟨2, 9⟩ ∧ Definition.find? r n = Symbol.ofFunction? f [] := by
  have found : ((tree "a\nfunction g\nfunction a\nend\nend\nfunction a\nend").nodes.any fun n =>
      n.isCommandName && n.text != "argv" &&
        ((tree "a\nfunction g\nfunction a\nend\nend\nfunction a\nend").nodes.all fun f =>
          f.kind != .functionDefinition ||
            f.firstNamedChild?.all fun name => name.range != n.range) &&
        (Definition.find? (root "a\nfunction g\nfunction a\nend\nend\nfunction a\nend") n).any
          fun s => s.selection.start == ⟨2, 9⟩ && decide (n.start ≤ s.selection.start))
      = true := by decide +kernel
  obtain ⟨n, member, shape⟩ := List.any_eq_true.mp found
  simp only [Bool.and_eq_true, Option.any_eq_true, bne_iff_ne, ne_eq, List.all_eq_true,
    Bool.or_eq_true, Option.all_eq_true, beq_iff_eq, decide_eq_true_eq] at shape
  obtain ⟨⟨⟨command, other⟩, elsewhere⟩, s, refers, start, behind⟩ := shape
  obtain ⟨exists_iff, -, resolves⟩ := find?_call _ _ n (root?_tree _) member command other
  have away : ∀ f name,
      Defines "a\nfunction g\nfunction a\nend\nend\nfunction a\nend" n.text f name →
        name.range ≠ n.range := fun f name defines =>
    (elsewhere f defines.member).resolve_left (not_not_intro defines.function) name defines.named
  rcases resolves away with ⟨f, name, latest, same⟩ |
    ⟨unreached, ⟨f, name, earliest, same⟩ | nothing⟩
  · obtain ⟨-, -, selection, -⟩ := latest.symbol_eq (same.symm.trans refers)
    rw [selection] at behind
    exact absurd latest.before (not_lt_of_ge behind)
  · obtain ⟨-, -, selection, -⟩ := earliest.symbol_eq (same.symm.trans refers)
    rw [selection] at start
    exact ⟨_, n, f, name, root?_tree _, member, command, other, unreached, earliest, start, same⟩
  · obtain ⟨f, name, defines⟩ := exists_iff.mp (by rw [refers]; rfl)
    exact absurd defines (nothing f name)

end FishNav.Script
