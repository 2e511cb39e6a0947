import FishNav.Proofs.Definition
import FishNav.Proofs.Script.Levels

/-!
# Resolution of variables

A variable in an expansion refers to the last definition of its name before it, among those that
live in the functions above it or in the program (`find?_expansion`). A variable of a function that
is not around the reference is never found, and no definition that can be seen is missed.
-/
namespace FishNav

namespace Script

open Node (Descends)

variable {source : String} {n v : Node} {s : Symbol}

/-- `v` brings in the variable that `n` names, before `n`, in a function above `n` or in the
program. -/
structure Sees (source : String) (n v : Node) : Prop where
  member : v ∈ (tree source).nodes
  definition : v.isVariableDefinition = true
  text : v.text = n.text
  before : v.start < n.start
  scope : ∃ scope ∈ n.ancestors, v.definitionScope? = some scope

/-- An expansion never refers to a function. -/
theorem expectedKind?_reference (reference : Reference source n) :
    Definition.expectedKind? n = some .var := by
  obtain ⟨p, parent, expansion⟩ := reference.expansion
  have name : ∀ kind : Kind, kind ≠ .variableExpansion → n.isNameOf kind = false := by
    intro kind other
    simp [Node.isNameOf, parent, expansion, other.symm]
  simp [Definition.expectedKind?, Node.isCommandName, Node.isFunctionName, name, reference.kind]

/-- The candidates for a reference are the symbols of the definitions it sees. -/
theorem mem_candidates_iff (reference : Reference source n) :
    s ∈ Definition.candidates (root source) n ↔ ∃ v, Sees source n v ∧ s = .ofVariable v := by
  rw [Definition.candidates, expectedKind?_reference reference, List.mem_filter,
    mem_visible_iff reference.use]
  simp only [Option.all_some, Bool.and_eq_true, beq_iff_eq, Range.precedes, decide_eq_true_eq]
  constructor
  · rintro ⟨⟨scope, above, bounds, t, member, rfl⟩, ⟨name, kind⟩, before⟩
    obtain ⟨v, exposed, own⟩ := Node.mem_inner_iff.mp member
    rcases Node.symbol?_cases own with ⟨-, _, symbol⟩ | ⟨-, definition, rfl⟩
    · cases symbol.kind.symm.trans kind
    · have insideS := (reference.inside.of_mem_ancestors above).1
      have inside := insideS.trans exposed.descends
      have lives := findAbove?_of_exposed insideS bounds exposed (leaf_of_definition definition).2
      rw [← definitionScope?_eq inside definition] at lives
      exact ⟨v, ⟨mem_nodes_iff.mpr inside, definition, name, before, scope, above, lives⟩, rfl⟩
  · rintro ⟨v, sees, rfl⟩
    have inside := mem_nodes_iff.mp sees.member
    obtain ⟨scope, above, lives⟩ := sees.scope
    rw [definitionScope?_eq inside sees.definition] at lives
    have exposed := exposed_of_findAbove? inside lives
    have own := Node.symbol?_of_variable sees.definition
    exact ⟨⟨scope, above, List.find?_some lives, _, Node.mem_inner_iff.mpr ⟨v, exposed, own⟩, rfl⟩,
      ⟨sees.text, rfl⟩, sees.before⟩

/-- No other node has the range of a reference. -/
theorem eq_of_range_eq (reference : Reference source n) (inside : Descends (root source) v)
    (same : v.range = n.range) : v = n := by
  have strict : v.range.start < v.range.stop := same ▸ reference.use.start_lt_stop
  exact (eq_of_range reference.inside (by rw [reference.kind]; rfl) reference.name.2 inside strict
    same.symm).symm

/-- A reference is no name that is being defined. -/
theorem selection_ne_range (reference : Reference source n)
    (member : s ∈ Symbol.flatten (root source).symbols) : s.selection ≠ n.range := by
  intro same
  obtain ⟨p, parent, expansion⟩ := reference.expansion
  obtain ⟨m, way, own⟩ := Node.exists_of_mem_flatten member
  rcases Node.symbol?_cases own with ⟨function, name, symbol⟩ | ⟨-, definition, rfl⟩
  · obtain ⟨-, k, found, -⟩ := firstNamed_place symbol.named
    have step := List.mem_of_getElem? found
    obtain rfl := eq_of_range_eq reference (way.down step) (symbol.selection ▸ same)
    obtain rfl := Option.some.inj ((Node.parent?_of_mem_children step).symm.trans parent)
    cases function.symm.trans expansion
  · obtain rfl := eq_of_range_eq reference way same
    rcases kinds_of_definition parent definition with ⟨-, kind⟩ | ⟨-, kind | kind⟩ <;>
      cases kind.symm.trans expansion

/-- A reference refers to the latest of its candidates. -/
theorem find?_reference (reference : Reference source n) (other : n.text ≠ "argv") :
    Definition.find? (root source) n =
      Definition.latest? (Definition.candidates (root source) n) := by
  rcases @Definition.find?_cases (root source) n other with ⟨s, member, selection, -⟩ | ⟨-, found⟩
  · exact absurd selection (selection_ne_range reference member)
  · rw [found, Definition.fallback?, expectedKind?_reference reference, if_pos rfl, Option.or_none]

/-- Two nodes that bring in a variable start at different places, so one of them is the latest. -/
theorem Sees.start_ne {w : Node} (first : Sees source n v) (second : Sees source n w)
    (other : w ≠ v) : w.start ≠ v.start := by
  intro same
  apply other
  exact eq_of_selection_start (mem_nodes_iff.mp second.member) (mem_nodes_iff.mp first.member)
    (Node.symbol?_of_variable second.definition) (Node.symbol?_of_variable first.definition) same

/-- A variable in an expansion refers to the last of the definitions it sees, if it sees any. -/
theorem find?_expansion (source : String) (r n : Node) (top : (tree source).root? = some r)
    (member : n ∈ (tree source).nodes) (kind : n.kind = .variableName)
    (expansion : ∃ p, n.parent? = some p ∧ p.kind = .variableExpansion) (other : n.text ≠ "argv") :
    ((∀ v, ¬ Sees source n v) ∧ Definition.find? r n = none) ∨
      ∃ v, Sees source n v ∧ (∀ w, Sees source n w → w ≠ v → w.start < v.start) ∧
        Definition.find? r n = some (.ofVariable v) := by
  obtain rfl : root source = r := Option.some.inj ((root?_tree source).symm.trans top)
  have reference : Reference source n := ⟨mem_nodes_iff.mp member, kind, expansion⟩
  rw [find?_reference reference other]
  cases found : Definition.latest? _ with
  | none =>
    refine Or.inl ⟨fun v sees => ?_, rfl⟩
    have candidate := (mem_candidates_iff reference).mpr ⟨v, sees, rfl⟩
    rw [Definition.latest?_eq_none_iff.mp found] at candidate
    cases candidate
  | some s =>
    obtain ⟨candidate, greatest⟩ := Definition.latest?_spec found
    obtain ⟨v, sees, rfl⟩ := (mem_candidates_iff reference).mp candidate
    refine Or.inr ⟨v, sees, fun w sees' different => ?_, rfl⟩
    have before := greatest _ ((mem_candidates_iff reference).mpr ⟨w, sees', rfl⟩)
    exact lt_of_le_of_ne before (sees.start_ne sees' different)

/-- A variable of a function is not seen from outside of it, one of the program is. -/
theorem find?_behind_function :
    ∃ r n v, (tree "set x 1\nfunction f\nset x 2\nend\necho $x").root? = some r ∧
      n ∈ (tree "set x 1\nfunction f\nset x 2\nend\necho $x").nodes ∧ n.kind = .variableName ∧
      (∃ p, n.parent? = some p ∧ p.kind = .variableExpansion) ∧ n.text ≠ "argv" ∧
      Sees "set x 1\nfunction f\nset x 2\nend\necho $x" n v ∧ v.start = ⟨0, 4⟩ ∧
      Definition.find? r n = some (.ofVariable v) := by
  have found : ((tree "set x 1\nfunction f\nset x 2\nend\necho $x").nodes.find? fun n =>
      n.kind == .variableName && (n.parent?.any fun p => p.kind == .variableExpansion) &&
        n.text != "argv" &&
        (Definition.find? (root "set x 1\nfunction f\nset x 2\nend\necho $x") n).any fun s =>
          s.selection.start == ⟨0, 4⟩).isSome = true := by decide +kernel
  obtain ⟨n, found⟩ := Option.isSome_iff_exists.mp found
  have member := List.mem_of_find?_eq_some found
  have shape := List.find?_some found
  simp only [Bool.and_eq_true, beq_iff_eq, Option.any_eq_true, bne_iff_ne, ne_eq] at shape
  obtain ⟨⟨⟨kind, expansion⟩, other⟩, s, refers, start⟩ := shape
  rcases find?_expansion _ _ n (root?_tree _) member kind expansion other with
    ⟨-, none⟩ | ⟨v, sees, -, same⟩
  · cases none.symm.trans refers
  · obtain rfl := Option.some.inj (same.symm.trans refers)
    exact ⟨_, n, v, root?_tree _, member, kind, expansion, other, sees, start, same⟩

end Script

end FishNav
