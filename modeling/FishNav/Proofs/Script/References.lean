import FishNav.Proofs.Script.Calls
import FishNav.Proofs.Tree.Lookup

/-!
# References of a script

The references to a variable are the variables of its name that live in the same function or
program as its definition (`mem_references_variable_iff`), those to a function all calls of it.
Hence a call is always among the references to what it refers to, and a variable just when it lives
where its definition lives (`mem_references_self`): a variable of the program that is used in a
function is not (`references_across_function`).
-/
namespace FishNav

theorem Node.mem_ancestors_of_definitionScope? {n scope : Node}
    (lives : n.definitionScope? = some scope) : scope ∈ n.ancestors := by
  unfold definitionScope? at lives
  split at lives
  · obtain ⟨p, parent, found⟩ := Option.bind_eq_some_iff.mp lives
    cases n with
    | root s => cases parent
    | child q slot s =>
      obtain rfl := Option.some.inj parent
      exact List.mem_cons_of_mem q (List.mem_of_find?_eq_some found)
  · exact List.mem_of_find?_eq_some lives

namespace Script

open Node (Descends)

variable {source uri : String} {m n v : Node} {s : Symbol} {l : Location}

/-! ### Nodes of symbols -/

/-- The range of a node is always found again. -/
theorem exists_atRange? (inside : Descends (root source) v) :
    ∃ m, (root source).atRange? v.range = some m := by
  have whole : (root source).self.covers v.range = true :=
    Node.covers_iff.mpr (within_of_descends .here inside)
  rw [Node.atRange?, if_pos whole]
  exact ⟨_, rfl⟩

/-- The node at the range of a node that has a text is below that node. -/
theorem atRange?_range (inside : Descends (root source) v) (strict : v.start < v.stop) :
    ∃ m, (root source).atRange? v.range = some m ∧ Descends v m := by
  obtain ⟨m, found⟩ := exists_atRange? inside
  obtain ⟨way, covers, last⟩ := Node.atRange?_spec found
  have around : m.start ≤ v.start ∧ v.stop ≤ m.stop := Node.covers_iff.mp covers
  refine ⟨m, found, ?_⟩
  rcases apart inside way with below | above | before | behind
  · exact below
  · -- on the way down to `v` every node takes in the range, so nothing is left of it
    rcases above.cases_child with rfl | ⟨c, step, rest⟩
    · exact .here
    · have wider : c.self.covers v.range = true :=
        Node.covers_iff.mpr (within_of_descends (way.down step) rest)
      cases (last c step).symm.trans wider
  · exact absurd (le_trans before around.1) (not_le_of_gt strict)
  · exact absurd (le_trans around.2 behind) (not_le_of_gt strict)

/-- The symbol of a variable leads back to the node that brings it in. -/
theorem node?_variable (inside : Descends (root source) v) (text : v.text ≠ "")
    (definition : v.isVariableDefinition = true) :
    (Symbol.ofVariable v).node? (root source) = some v := by
  obtain ⟨m, found, below⟩ := atRange?_range inside (start_lt_stop inside text)
  obtain rfl := eq_of_leaf inside (leaf_of_definition definition).1 below
  exact found

/-! ### Variables -/

/-- A variable is the name in an expansion, or it is brought in. -/
theorem variable_cases (inside : Descends (root source) n) (role : n.isVariable = true) :
    Reference source n ∨ n.isVariableDefinition = true := by
  rw [Node.isVariable, Bool.or_eq_true, beq_iff_eq] at role
  rcases role with kind | definition
  · cases inside with
    | here => cases (stands_root source).1.symm.trans kind
    | @down p _ way step =>
      have parent := Node.parent?_of_mem_children step
      have kinds := child_kind way step
      rw [kind] at kinds
      by_cases expansion : p.kind = .variableExpansion
      · exact Or.inl ⟨way.down step, kind, p, parent, expansion⟩
      · right
        have loop : p.kind = .forStatement := by
          revert kinds expansion
          cases p.kind <;> decide
        simp [Node.isVariableDefinition, parent, kind, loop]
  · exact Or.inr definition

/-- No two variables that have a text have the same range. -/
theorem eq_of_variable_range (insideM : Descends (root source) m) (role : m.isVariable = true)
    (inside : Descends (root source) n) (text : n.text ≠ "") (same : m.range = n.range) :
    m = n := by
  rcases variable_cases insideM role with reference | definition
  · exact (eq_of_range_eq reference inside same.symm).symm
  · exact eq_of_definition_range insideM definition inside (start_lt_stop inside text) same

theorem sameScope_eq_true_iff {a b : Option Node} (left : ∀ f ∈ a, Descends (root source) f)
    (right : ∀ f ∈ b, Descends (root source) f) : Definition.sameScope a b = true ↔ a = b := by
  cases a with
  | none => cases b <;> simp [Definition.sameScope]
  | some f =>
    cases b with
    | none => simp [Definition.sameScope]
    | some g => rw [Definition.sameScope, same_iff (left f rfl) (right g rfl), Option.some.injEq]

theorem scope_inside (inside : Descends (root source) n) :
    ∀ scope ∈ n.definitionScope?, Descends (root source) scope := fun _ lives =>
  (inside.of_mem_ancestors (Node.mem_ancestors_of_definitionScope? lives)).1

/-- Scopes are compared by number, and in one tree that is the same as being the same node. -/
theorem sameScope_iff (left : Descends (root source) m) (right : Descends (root source) n) :
    Definition.sameScope m.definitionScope? n.definitionScope? = true ↔
      m.definitionScope? = n.definitionScope? :=
  sameScope_eq_true_iff (scope_inside left) (scope_inside right)

/-- What brings in a variable refers to itself. -/
theorem find?_definition (inside : Descends (root source) v) (text : v.text ≠ "")
    (other : v.text ≠ "argv") (definition : v.isVariableDefinition = true) :
    Definition.find? (root source) v = some (.ofVariable v) := by
  have own := Node.symbol?_of_variable definition
  rcases @Definition.find?_cases (root source) v other with
    ⟨s, member, selection, -, found⟩ | ⟨nothing, -⟩
  · obtain ⟨m, way, own'⟩ := Node.exists_of_mem_flatten member
    rcases Node.symbol?_cases own' with ⟨function, name, symbol⟩ | ⟨-, definition', rfl⟩
    · -- a function with this name would be one whose name brings in a variable
      obtain ⟨-, k, place, -⟩ := firstNamed_place symbol.named
      have insideN := way.down (List.mem_of_getElem? place)
      have strict : name.range.start < name.range.stop :=
        (symbol.selection.symm.trans selection) ▸ start_lt_stop inside text
      obtain rfl := eq_of_definition_range inside definition insideN strict
        (selection.symm.trans symbol.selection)
      simp [name_not_definition way (by simp [function]) symbol.named] at definition
    · obtain rfl := eq_of_definition_range way definition' inside (start_lt_stop inside text)
        selection
      exact found
  · exact absurd rfl (nothing _ (mem_flatten_of_descends .here inside own) rfl)

/-- A variable refers to a node that brings in a variable of its name. -/
theorem find?_variable (inside : Descends (root source) n) (role : n.isVariable = true)
    (text : n.text ≠ "") (other : n.text ≠ "argv")
    (refers : Definition.find? (root source) n = some s) :
    ∃ v, Descends (root source) v ∧ v.isVariableDefinition = true ∧ v.text = n.text ∧
      s = .ofVariable v := by
  rcases variable_cases inside role with reference | definition
  · rw [find?_reference reference other] at refers
    obtain ⟨v, sees, same⟩ :=
      (mem_candidates_iff reference).mp (Definition.latest?_spec refers).1
    exact ⟨v, mem_nodes_iff.mp sees.member, sees.definition, sees.text, same⟩
  · rw [find?_definition inside text other definition] at refers
    exact ⟨n, inside, definition, rfl, (Option.some.inj refers).symm⟩

/-! ### References -/

/-- The references to a variable are the variables of its name in the scope of its definition. -/
theorem mem_references_variable_iff (other : n.text ≠ "argv") (inside : Descends (root source) v)
    (text : v.text ≠ "") (definition : v.isVariableDefinition = true)
    (refers : Definition.find? (root source) n = some (.ofVariable v)) :
    l ∈ Definition.references uri (root source) n ↔
      ∃ m, Descends (root source) m ∧ m.text = v.text ∧
        (m.isVariable = true ∧ m.definitionScope? = v.definitionScope?) ∧ l = ⟨uri, m.range⟩ := by
  rw [Definition.references_of_variable other refers (node?_variable inside text definition) rfl,
    Definition.mem_locationsWhere_iff]
  simp only [Bool.and_eq_true, beq_iff_eq, and_assoc]
  constructor
  · rintro ⟨m, way, same, role, scope, rfl⟩
    exact ⟨m, way, same, role, (sameScope_iff way inside).mp scope, rfl⟩
  · rintro ⟨m, way, same, role, scope, rfl⟩
    exact ⟨m, way, same, role, (sameScope_iff way inside).mpr scope, rfl⟩

/-- The references to a function are the calls and the functions of its name. -/
theorem mem_references_function_iff (other : n.text ≠ "argv")
    (member : s ∈ Symbol.flatten (root source).symbols) (function : s.kind = .function)
    (refers : Definition.find? (root source) n = some s.leaf) :
    l ∈ Definition.references uri (root source) n ↔
      ∃ m, Descends (root source) m ∧ m.text = s.name ∧
        (m.isCommandName = true ∨ m.isFunctionName = true) ∧ l = ⟨uri, m.range⟩ := by
  have exists_name : ∃ name, s.leaf.node? (root source) = some name := by
    obtain ⟨f, name, defines, -, selection⟩ := Defines.of_flatten member function rfl
    obtain ⟨-, k, place, -⟩ := firstNamed_place defines.named
    have inside := (mem_nodes_iff.mp defines.member).down (List.mem_of_getElem? place)
    rw [Symbol.node?, show s.leaf.selection = name.range from selection]
    exact exists_atRange? inside
  obtain ⟨name, found⟩ := exists_name
  rw [Definition.references_of_function other refers found function,
    Definition.mem_locationsWhere_iff]
  simp only [Bool.and_eq_true, Bool.or_eq_true, beq_iff_eq, and_assoc]
  rfl

/-- A call is among the references to what it refers to. A variable is among those to its
definition just when both live in the same function or program. -/
theorem mem_references_self (source uri : String) (r n : Node) (s : Symbol)
    (top : (tree source).root? = some r) (member : n ∈ (tree source).nodes) (text : n.text ≠ "")
    (other : n.text ≠ "argv") (refers : Definition.find? r n = some s) :
    (n.isCommandName = true → ⟨uri, n.range⟩ ∈ Definition.references uri r n) ∧
      (n.isVariable = true → ∃ v ∈ (tree source).nodes, v.isVariableDefinition = true ∧
        s = .ofVariable v ∧ (⟨uri, n.range⟩ ∈ Definition.references uri r n ↔
          n.definitionScope? = v.definitionScope?)) := by
  obtain rfl : root source = r := Option.some.inj ((root?_tree source).symm.trans top)
  have inside := mem_nodes_iff.mp member
  constructor
  · intro command
    rcases find?_call_defines ⟨inside, command⟩ other with ⟨f, name, defines, found⟩ | ⟨-, none⟩
    · obtain ⟨function, named, -, t, outline, rfl⟩ :=
        defines.symbol_eq (found.symm.trans refers)
      apply (mem_references_function_iff other outline function refers).mpr
      exact ⟨n, inside, named.symm, Or.inl command, rfl⟩
    · cases none.symm.trans refers
  · intro role
    obtain ⟨v, insideV, definition, same, rfl⟩ := find?_variable inside role text other refers
    refine ⟨v, mem_nodes_iff.mpr insideV, definition, rfl, ?_⟩
    rw [mem_references_variable_iff other insideV (same ▸ text) definition refers]
    constructor
    · rintro ⟨m, way, -, ⟨role', scope⟩, place⟩
      have range : m.range = n.range := (congrArg Location.range place).symm
      rwa [← eq_of_variable_range way role' inside text range]
    · intro scope
      exact ⟨n, inside, same.symm, ⟨role, scope⟩, rfl⟩

/-- In a function, a variable that is set there refers to that definition and is listed with it. -/
theorem mem_references_self_local :
    ∃ r n v, (tree "set x 1\nfunction f\nset x 2\necho $x\nend").root? = some r ∧
      n ∈ (tree "set x 1\nfunction f\nset x 2\necho $x\nend").nodes ∧ n.isVariable = true ∧
      n.text ≠ "" ∧ n.text ≠ "argv" ∧ Definition.find? r n = some (.ofVariable v) ∧
      n.start = ⟨3, 6⟩ ∧ v.start = ⟨2, 4⟩ ∧ n.definitionScope? = v.definitionScope? ∧
      ⟨"file:///main.fish", n.range⟩ ∈ Definition.references "file:///main.fish" r n := by
  have found : ((tree "set x 1\nfunction f\nset x 2\necho $x\nend").nodes.any fun n =>
      n.isVariable && n.text != "" && n.text != "argv" && n.start == ⟨3, 6⟩ &&
        (Definition.find? (root "set x 1\nfunction f\nset x 2\necho $x\nend") n).any fun s =>
          s.selection.start == ⟨2, 4⟩ &&
            (tree "set x 1\nfunction f\nset x 2\necho $x\nend").nodes.all fun v =>
              v.range != s.selection ||
                Definition.sameScope n.definitionScope? v.definitionScope?) = true := by
    decide +kernel
  obtain ⟨n, member, shape⟩ := List.any_eq_true.mp found
  simp only [Bool.and_eq_true, Bool.or_eq_true, beq_iff_eq, Option.any_eq_true,
    List.all_eq_true, bne_iff_ne, ne_eq] at shape
  obtain ⟨⟨⟨⟨role, text⟩, other⟩, place⟩, s, refers, start, together⟩ := shape
  obtain ⟨-, resolves⟩ := mem_references_self _ "file:///main.fish" _ n s (root?_tree _) member
    text other refers
  obtain ⟨v, memberV, -, rfl, listed_iff⟩ := resolves role
  have scope := (sameScope_iff (mem_nodes_iff.mp member) (mem_nodes_iff.mp memberV)).mp
    ((together v memberV).resolve_left (not_not_intro rfl))
  exact ⟨_, n, v, root?_tree _, member, role, text, other, refers, place, start, scope,
    listed_iff.mpr scope⟩

/-- A variable of the program that is used in a function refers to its definition, and is not
listed with it. -/
theorem references_across_function :
    ∃ r n, (tree "set x 1\nfunction f\necho $x\nend").root? = some r ∧
      n ∈ (tree "set x 1\nfunction f\necho $x\nend").nodes ∧ n.isVariable = true ∧ n.text ≠ "" ∧
      n.text ≠ "argv" ∧ (Definition.find? r n).isSome = true ∧
      ⟨"file:///main.fish", n.range⟩ ∉ Definition.references "file:///main.fish" r n := by
  have found : ((tree "set x 1\nfunction f\necho $x\nend").nodes.any fun n =>
      n.isVariable && n.text != "" && n.text != "argv" &&
        (Definition.find? (root "set x 1\nfunction f\necho $x\nend") n).isSome &&
        (Definition.references "file:///main.fish"
          (root "set x 1\nfunction f\necho $x\nend") n).all fun l =>
            l != ⟨"file:///main.fish", n.range⟩) = true := by decide +kernel
  obtain ⟨n, member, shape⟩ := List.any_eq_true.mp found
  simp only [Bool.and_eq_true, List.all_eq_true, bne_iff_ne, ne_eq] at shape
  obtain ⟨⟨⟨⟨role, text⟩, other⟩, refers⟩, absent⟩ := shape
  exact ⟨_, n, root?_tree _, member, role, text, other, refers, fun listed => absent _ listed rfl⟩

end Script

end FishNav
