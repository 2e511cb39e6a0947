import FishNav.Proofs.Script.Occurrences

/-!
# Arguments of functions

The arguments of a function have one name everywhere, `argv`, so what a use of it means is decided
by the innermost function around the use alone. Two walks find that function: one looks for the
nearest function above, the other for the scope in which the name lives; for the name of a variable
they agree (`definitionScope?_eq_some_iff`). So the uses fall apart into one group for each
function: a use refers to the symbol of its function, and the uses of a group have one list of
references, which is the group. Uses outside of all functions refer to nothing
(`references_arguments`).
-/
namespace FishNav

namespace Node

variable {n f : Node}

/-- `f` is the innermost function around `n`. -/
structure Innermost (n f : Node) : Prop where
  above : f ∈ n.ancestors
  function : f.kind = .functionDefinition
  innermost : ∀ g ∈ n.ancestors, g.kind = .functionDefinition → g = f ∨ g ∈ f.ancestors

theorem Innermost.of_find {p : Node → Bool} (found : n.findAbove? p = some f)
    (function : f.kind = .functionDefinition)
    (all : ∀ g : Node, g.kind = .functionDefinition → p g = true) : Innermost n f where
  above := List.mem_of_find?_eq_some found
  function := function
  innermost := fun g above kind => eq_or_above_of_findAbove? found above (all g kind)

theorem Innermost.unique {g : Node} (left : Innermost n f) (right : Innermost n g) : f = g := by
  rcases left.innermost g right.above right.function with same | lower
  · exact same.symm
  · rcases right.innermost f left.above left.function with same | higher
    · exact same
    · have := length_ancestors_lt lower
      have := length_ancestors_lt higher
      omega

/-- The search upwards finds the innermost function. -/
theorem findAbove?_function_iff :
    n.findAbove? isFunctionDefinition = some f ↔ Innermost n f := by
  have all : ∀ g : Node, g.kind = .functionDefinition → g.isFunctionDefinition = true := by
    simp [isFunctionDefinition]
  have sound : ∀ {g : Node}, n.findAbove? isFunctionDefinition = some g → Innermost n g := by
    intro g found
    have function : g.isFunctionDefinition = true := List.find?_some found
    exact .of_find found (by simpa [isFunctionDefinition] using function) all
  refine ⟨sound, fun innermost => ?_⟩
  cases found : n.findAbove? isFunctionDefinition with
  | none => exact absurd (all f innermost.function) (List.find?_eq_none.mp found f innermost.above)
  | some g => rw [(sound found).unique innermost]

end Node

namespace Script

open Node (Descends Innermost)

variable {source uri : String} {m n f : Node}

/-! ### Two walks up -/

/-- The name of a variable is never the name of a function. -/
theorem isFunctionName_variableName (inside : Descends (root source) m)
    (kind : m.kind = .variableName) : m.isFunctionName = false := by
  refine Bool.eq_false_iff.mpr fun name => ?_
  cases inside with
  | here => cases (stands_root source).1.symm.trans kind
  | @down p _ way step =>
    simp only [Node.isFunctionName, Node.isNameOf, Node.parent?_of_mem_children step,
      Bool.and_eq_true, beq_iff_eq] at name
    have kinds := child_kind way step
    rw [kind, name.1] at kinds
    exact absurd kinds (by decide)

/-- The name of a variable lives in a function just when this is the innermost one around it. -/
theorem definitionScope?_eq_some_iff (inside : Descends (root source) m)
    (kind : m.kind = .variableName) (function : f.kind = .functionDefinition) :
    m.definitionScope? = some f ↔ Innermost m f := by
  rw [Node.definitionScope?, isFunctionName_variableName inside kind, if_neg Bool.false_ne_true]
  constructor
  · intro found
    exact .of_find found function fun g kind => bounds_iff.mpr (Or.inl kind)
  · intro innermost
    obtain ⟨scope, found⟩ := exists_scope inside (by simp [kind])
    have above := List.mem_of_find?_eq_some found
    rcases Node.eq_or_above_of_findAbove? found innermost.above
      (bounds_iff.mpr (Or.inl function)) with rfl | higher
    · exact found
    · -- a scope below the innermost function is the program, which has nothing above it
      exfalso
      rcases bounds_iff.mp (List.find?_some found) with another | program
      · have lower := Node.length_ancestors_lt higher
        rcases innermost.innermost scope above another with rfl | outer
        · omega
        · have := Node.length_ancestors_lt outer
          omega
      · rw [eq_root_of_program (inside.of_mem_ancestors above).1 program] at higher
        simp [root, Node.ancestors] at higher

/-! ### The function of a use -/

/-- The first function that is selected where a function is selected is that function. -/
theorem find?_function {s : Symbol} (member : s ∈ Symbol.flatten (root source).symbols)
    (function : s.kind = .function) :
    ((Symbol.flatten (root source).symbols).find? fun t =>
      t.isFunction && t.selection == s.selection) = some s := by
  cases found : (Symbol.flatten (root source).symbols).find? fun t =>
      t.isFunction && t.selection == s.selection with
  | none =>
    have other := List.find?_eq_none.mp found s member
    simp [Symbol.isFunction, function] at other
  | some t =>
    have holds := List.find?_some found
    simp only [Bool.and_eq_true, beq_iff_eq] at holds
    rw [eq_of_mem_flatten (List.mem_of_find?_eq_some found) member
      (congrArg Range.start holds.2)]

/-- A function around a named node has a symbol, and its arguments refer to that symbol. -/
theorem find?_arguments (inside : Descends (root source) n) (named : n.isNamed = true)
    (text : n.text = "argv") (innermost : Innermost n f) :
    ∃ s ∈ Symbol.flatten (root source).symbols, s.kind = .function ∧
      Symbol.ofFunction? f s.children = some s ∧
      Definition.find? (root source) n = some s.leaf := by
  obtain ⟨insideF, way⟩ := inside.of_mem_ancestors innermost.above
  have exists_child : ∃ c ∈ f.children, c.isNamed = true := by
    rcases way.cases_child with rfl | ⟨c, step, rest⟩
    · exact absurd (Node.length_ancestors_lt innermost.above) (Nat.lt_irrefl _)
    · exact ⟨c, step, named_of_descends (insideF.down step) rest named⟩
  obtain ⟨c, step, namedC⟩ := exists_child
  obtain ⟨name, s, own, symbol⟩ := exists_functionSymbol innermost.function step namedC
  have member := mem_flatten_of_descends .here insideF own
  refine ⟨s, member, symbol.kind, ofFunction?_children innermost.function own, ?_⟩
  have first := find?_function member symbol.kind
  rw [symbol.selection] at first
  rw [Definition.find?_of_arguments text, Definition.enclosingFunction?,
    Node.findAbove?_function_iff.mpr innermost]
  simp only [Option.bind_eq_bind, Option.bind_some, symbol.named, first, Option.pure_def]

/-! ### The uses of a function -/

/-- The uses of the arguments of a function leave out those of the functions inside it. -/
theorem references_arguments_lists (inside : Descends (root source) n) (text : n.text = "argv")
    (innermost : Innermost n f) :
    Lists source uri (fun m => m.kind = .variableName ∧ m.text = "argv" ∧ Innermost m f)
      (Definition.references uri (root source) n) := by
  rw [Definition.references_of_arguments text (Node.findAbove?_function_iff.mpr innermost)]
  refine lists_locationsWhere fun m way => ?_
  have insideF : ∀ g ∈ some f, Descends (root source) g := by
    rintro g ⟨⟩
    exact (inside.of_mem_ancestors innermost.above).1
  rw [Bool.and_eq_true, Bool.and_eq_true, beq_iff_eq, beq_iff_eq, and_assoc,
    sameScope_eq_true_iff (scope_inside way) insideF]
  refine and_congr_right fun kind => and_congr_right fun _ => ?_
  exact definitionScope?_eq_some_iff way kind innermost.function

/-- A use of the arguments outside of all functions refers to nothing. Any other one refers to the
innermost function around it and has the uses of that function for its references. -/
theorem references_arguments (source uri : String) (r n : Node)
    (top : (tree source).root? = some r) (member : n ∈ (tree source).nodes)
    (kind : n.kind = .variableName) (text : n.text = "argv") :
    ((∀ f ∈ n.ancestors, f.kind ≠ .functionDefinition) ∧ Definition.find? r n = none ∧
        Definition.references uri r n = []) ∨
      ∃ f, Innermost n f ∧
        (∃ s ∈ Symbol.flatten r.symbols, s.kind = .function ∧
          Symbol.ofFunction? f s.children = some s ∧ Definition.find? r n = some s.leaf) ∧
        ⟨uri, n.range⟩ ∈ Definition.references uri r n ∧
        Lists source uri (fun m => m.kind = .variableName ∧ m.text = "argv" ∧ Innermost m f)
          (Definition.references uri r n) ∧
        (Definition.references uri r n).Pairwise (·.range.start < ·.range.start) ∧
        ∀ m ∈ (tree source).nodes, m.kind = .variableName → m.text = "argv" → Innermost m f →
          Definition.references uri r m = Definition.references uri r n := by
  obtain rfl : root source = r := Option.some.inj ((root?_tree source).symm.trans top)
  have inside := mem_nodes_iff.mp member
  cases around : n.findAbove? Node.isFunctionDefinition with
  | none =>
    refine Or.inl ⟨fun f above function => ?_, Definition.arguments_of_none text around⟩
    have other := List.find?_eq_none.mp around f above
    simp [Node.isFunctionDefinition, function] at other
  | some f =>
    have innermost := Node.findAbove?_function_iff.mp around
    have lists := @references_arguments_lists source uri n f inside text innermost
    refine Or.inr ⟨f, innermost, ?_, lists.mem member ⟨kind, text, innermost⟩, lists, ?_, ?_⟩
    · exact find?_arguments inside (by rw [Node.isNamed, kind]; rfl) text innermost
    · apply lists.strict
      rintro a b memberA memberB ⟨kindA, textA, -⟩ ⟨kindB, textB, -⟩ same
      exact eq_of_variable_start (mem_nodes_iff.mp memberA) (mem_nodes_iff.mp memberB)
        (by simp [Node.isVariable, kindA]) (by simp [Node.isVariable, kindB]) (by simp [textA])
        (by simp [textB]) same
    · intro m _ _ textM innermostM
      rw [Definition.references_of_arguments text around,
        Definition.references_of_arguments textM (Node.findAbove?_function_iff.mpr innermostM)]

/-- A loop variable that is named like the arguments, behind an inner function, belongs to the outer
function together with the use in the list of the loop. The use on the first line belongs to no
function. -/
theorem references_arguments_nested :
    ∃ r n m o f,
      (tree "echo $argv\nfunction f\nfunction g\nend\nfor argv in $argv\nend\nend").root? = some r ∧
      n.kind = .variableName ∧ n.text = "argv" ∧ n.start = ⟨4, 4⟩ ∧ Innermost n f ∧
      (∃ s, Symbol.ofFunction? f s.children = some s ∧ s.name = "f" ∧
        Definition.find? r n = some s.leaf) ∧
      m.start = ⟨4, 13⟩ ∧ ⟨"file:///a", n.range⟩ ∈ Definition.references "file:///a" r n ∧
      (Definition.references "file:///a" r n).Pairwise (·.range.start < ·.range.start) ∧
      Definition.references "file:///a" r m = Definition.references "file:///a" r n ∧
      o.kind = .variableName ∧ o.text = "argv" ∧ o.start = ⟨0, 6⟩ ∧ Definition.find? r o = none ∧
      Definition.references "file:///a" r o = [] := by
  have found :
      ((tree "echo $argv\nfunction f\nfunction g\nend\nfor argv in $argv\nend\nend").nodes.any
      fun n => n.kind == .variableName && n.text == "argv" && n.start == ⟨4, 4⟩ &&
        (Definition.find?
          (root "echo $argv\nfunction f\nfunction g\nend\nfor argv in $argv\nend\nend") n).any
            fun s => s.name == "f" &&
        ((tree "echo $argv\nfunction f\nfunction g\nend\nfor argv in $argv\nend\nend").nodes.any
          fun m => m.kind == .variableName && m.text == "argv" && m.start == ⟨4, 13⟩ &&
            Definition.sameScope m.definitionScope? n.definitionScope?) &&
        (tree "echo $argv\nfunction f\nfunction g\nend\nfor argv in $argv\nend\nend").nodes.any
          fun o => o.kind == .variableName && o.text == "argv" && o.start == ⟨0, 6⟩ &&
            (Definition.find?
              (root "echo $argv\nfunction f\nfunction g\nend\nfor argv in $argv\nend\nend")
              o).isNone) = true := by
    decide +kernel
  obtain ⟨n, member, shape⟩ := List.any_eq_true.mp found
  simp only [Bool.and_eq_true, beq_iff_eq, Option.any_eq_true, List.any_eq_true,
    Option.isNone_iff_eq_none] at shape
  obtain ⟨⟨⟨kind, text⟩, start⟩, t, refers, ⟨named, m, memberM, ⟨⟨kindM, textM⟩, startM⟩, together⟩,
    o, memberO, ⟨⟨kindO, textO⟩, startO⟩, nothing⟩ := shape
  rcases references_arguments _ "file:///a" _ o (root?_tree _) memberO kindO textO with
    ⟨-, -, empty⟩ | ⟨_, _, ⟨_, _, _, _, something⟩, _⟩
  · rcases references_arguments _ "file:///a" _ n (root?_tree _) member kind text with
      ⟨-, missing, -⟩ | ⟨f, innermost, ⟨s, -, -, own, same⟩, listed, -, strict, equal⟩
    · cases missing.symm.trans refers
    · have insideM := mem_nodes_iff.mp memberM
      have inside := mem_nodes_iff.mp member
      have lives := (definitionScope?_eq_some_iff inside kind innermost.function).mpr innermost
      rw [sameScope_iff insideM inside, lives,
        definitionScope?_eq_some_iff insideM kindM innermost.function] at together
      have name : s.name = "f" := by
        rw [← named, ← Option.some.inj (same.symm.trans refers)]
        rfl
      exact ⟨_, n, m, o, f, root?_tree _, kind, text, start, innermost, ⟨s, own, name, same⟩,
        startM, listed, strict, equal m memberM kindM textM together, kindO, textO, startO, nothing,
        empty⟩
  · cases nothing.symm.trans something

end Script

end FishNav
