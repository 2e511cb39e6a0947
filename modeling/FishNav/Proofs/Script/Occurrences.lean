import FishNav.Proofs.Script.Names

/-!
# Lists of references

Each node that refers to a definition is listed once, in the order of the text, and the definition
is among the places that are listed. Variables of one name do not share a place, so the references
to a variable are strictly in order; they are the same for all its definitions in one function or
program. A function that is named by a command has its name twice at one place, so the references
to a function may have a place twice (`references_listed`).
-/
namespace FishNav.Script

open Node (Descends)

variable {source uri : String} {m n v w : Node} {s : Symbol} {P : Node → Prop}
  {ls : List Location}

/-! ### Lists of nodes -/

/-- `ls` has the places of the nodes of the script that satisfy `P`: one for each node, in the order
of the text. -/
structure Lists (source uri : String) (P : Node → Prop) (ls : List Location) : Prop where
  nodes : ∃ ms : List Node, ms.Nodup ∧ (∀ m, m ∈ ms ↔ m ∈ (tree source).nodes ∧ P m) ∧
    ls = ms.map fun m => ⟨uri, m.range⟩
  ordered : ls.Pairwise fun k l => k.range.start < l.range.start ∨
    k.range.start = l.range.start ∧ k.range.stop ≤ l.range.stop

/-- Sorting the nodes neither loses nor repeats one. -/
theorem lists_locationsWhere {p : Node → Bool}
    (holds : ∀ m, Descends (root source) m → (p m = true ↔ P m)) :
    Lists source uri P (Definition.locationsWhere uri (root source) p) := by
  obtain ⟨ms, distinct, members, order, all⟩ :=
    Definition.exists_locationsWhere uri (root source) p
  refine ⟨⟨ms, distinct, fun m => ?_, all⟩, ?_⟩
  · rw [members, mem_nodes_iff]
    exact and_congr_right (holds m)
  · rw [all, List.pairwise_map]
    exact order.imp Definition.inTextOrder_iff.mp

theorem Lists.mem (lists : Lists source uri P ls) (member : m ∈ (tree source).nodes) (holds : P m) :
    ⟨uri, m.range⟩ ∈ ls := by
  obtain ⟨ms, -, members, rfl⟩ := lists.nodes
  exact List.mem_map_of_mem ((members m).mpr ⟨member, holds⟩)

/-- Nodes that start at different places are listed strictly in order. -/
theorem Lists.strict (lists : Lists source uri P ls)
    (distinct : ∀ m n, m ∈ (tree source).nodes → n ∈ (tree source).nodes → P m → P n →
      m.start = n.start → m = n) :
    ls.Pairwise (·.range.start < ·.range.start) := by
  obtain ⟨ms, once, members, rfl⟩ := lists.nodes
  have ordered := lists.ordered
  rw [List.pairwise_map] at ordered ⊢
  refine (once.and ordered).imp_of_mem fun {m n} left right order => ?_
  obtain ⟨memberM, holdsM⟩ := (members m).mp left
  obtain ⟨memberN, holdsN⟩ := (members n).mp right
  rcases order with ⟨other, before | ⟨same, -⟩⟩
  · exact before
  · exact absurd (distinct m n memberM memberN holdsM holdsN same) other

theorem leaf_of_variable (role : m.isVariable = true) : childKinds m.kind = [] := by
  rw [Node.isVariable, Bool.or_eq_true, beq_iff_eq] at role
  rcases role with kind | definition
  · rw [kind]
    rfl
  · exact (leaf_of_definition definition).1

/-- No two variables that have a text start at the same place. -/
theorem eq_of_variable_start (left : Descends (root source) m) (right : Descends (root source) n)
    (roleM : m.isVariable = true) (roleN : n.isVariable = true) (textM : m.text ≠ "")
    (textN : n.text ≠ "") (same : m.start = n.start) : m = n := by
  rcases apart left right with below | above | before | behind
  · exact (eq_of_leaf left (leaf_of_variable roleM) below).symm
  · exact eq_of_leaf right (leaf_of_variable roleN) above
  · exact absurd (same ▸ before) (not_le_of_gt (start_lt_stop left textM))
  · exact absurd (same ▸ behind) (not_le_of_gt (start_lt_stop right textN))

/-! ### References to a variable -/

section

variable (other : n.text ≠ "argv") (inside : Descends (root source) v) (text : v.text ≠ "")
  (definition : v.isVariableDefinition = true)
  (refers : Definition.find? (root source) n = some (.ofVariable v))
include other inside text definition refers

/-- The uses of a variable are those in the function or program in which it lives. -/
theorem references_variable :
    Lists source uri (fun m => m.isVariable = true ∧ m.text = v.text ∧
      m.definitionScope? = v.definitionScope?) (Definition.references uri (root source) n) := by
  rw [Definition.references_of_variable other refers (node?_variable inside text definition) rfl]
  refine lists_locationsWhere fun m way => ?_
  rw [Bool.and_eq_true, Bool.and_eq_true, beq_iff_eq, sameScope_iff way inside]
  exact and_left_comm

/-- No two uses of a variable start at the same place. -/
theorem references_variable_strict :
    (Definition.references uri (root source) n).Pairwise (·.range.start < ·.range.start) := by
  refine (references_variable other inside text definition refers).strict ?_
  rintro a b memberA memberB ⟨roleA, textA, -⟩ ⟨roleB, textB, -⟩ same
  exact eq_of_variable_start (mem_nodes_iff.mp memberA) (mem_nodes_iff.mp memberB) roleA roleB
    (textA ▸ text) (textB ▸ text) same

/-- Another definition of the variable in the same scope has the same references. -/
theorem references_eq_of_scope (insideW : Descends (root source) w)
    (definitionW : w.isVariableDefinition = true) (same : w.text = v.text)
    (scope : w.definitionScope? = v.definitionScope?) (otherW : w.text ≠ "argv") :
    Definition.references uri (root source) w = Definition.references uri (root source) n := by
  have textW : w.text ≠ "" := same ▸ text
  have refersW := find?_definition insideW textW otherW definitionW
  rw [Definition.references_of_variable other refers (node?_variable inside text definition) rfl,
    Definition.references_of_variable otherW refersW (node?_variable insideW textW definitionW) rfl,
    scope]
  change Definition.locationsWhere uri (root source) (fun m => m.text == w.text && _) = _
  rw [same]
  rfl

end

/-! ### References to a function -/

/-- The uses of a function are its name and the commands of that name in the whole document. -/
theorem references_function (other : n.text ≠ "argv") (text : n.text ≠ "")
    (function : s.kind = .function) (refers : Definition.find? (root source) n = some s) :
    Lists source uri (fun m => m.text = s.name ∧ (m.isCommandName = true ∨ m.isFunctionName = true))
      (Definition.references uri (root source) n) := by
  obtain ⟨t, -, -, -, m, found, -⟩ := exists_of_find? text other refers
  rw [Definition.references_of_function other refers found function]
  refine lists_locationsWhere fun m way => ?_
  rw [Bool.and_eq_true, Bool.or_eq_true, beq_iff_eq]

/-! ### References to a definition -/

/-- The references to a definition are complete, in the order of the text, and have the definition
among them. -/
theorem references_listed (source uri : String) (r n : Node) (s : Symbol)
    (top : (tree source).root? = some r) (text : n.text ≠ "") (other : n.text ≠ "argv")
    (refers : Definition.find? r n = some s) :
    ⟨uri, s.selection⟩ ∈ Definition.references uri r n ∧
      (∃ v, CollectedFrom source s v) ∧
      (s.kind = .var → ∀ v, CollectedFrom source s v →
        Lists source uri (fun m => m.isVariable = true ∧ m.text = s.name ∧
            m.definitionScope? = v.definitionScope?) (Definition.references uri r n) ∧
          (Definition.references uri r n).Pairwise (·.range.start < ·.range.start) ∧
          ∀ w ∈ (tree source).nodes, w.isVariableDefinition = true → w.text = s.name →
            w.definitionScope? = v.definitionScope? →
              Definition.references uri r w = Definition.references uri r n) ∧
      (s.kind = .function →
        Lists source uri
          (fun m => m.text = s.name ∧ (m.isCommandName = true ∨ m.isFunctionName = true))
          (Definition.references uri r n)) := by
  obtain rfl : root source = r := Option.some.inj ((root?_tree source).symm.trans top)
  have named := Definition.name_of_find? other refers
  have exists_origin : ∃ v, CollectedFrom source s v := by
    obtain ⟨t, outline, rfl, -⟩ := exists_of_find? text other refers
    obtain ⟨v, collected⟩ := exists_collectedFrom outline
    exact ⟨v, collected.leaf⟩
  have ofFunction := fun kind => @references_function source uri n s other text kind refers
  refine ⟨?_, exists_origin, fun kind v collected => ?_, ofFunction⟩
  · obtain ⟨v, collected⟩ := exists_origin
    obtain ⟨place, word⟩ := collected.token
    rw [← place]
    cases kind : s.kind with
    | var =>
      obtain ⟨inside, definition, rfl⟩ := collected.of_var kind
      have role : v.isVariable = true := by simp [Node.isVariable, definition]
      exact (references_variable other inside (word.trans named ▸ text) definition refers).mem
        (mem_nodes_iff.mpr inside) ⟨role, rfl, rfl⟩
    | function =>
      obtain ⟨inside, role⟩ := collected.of_function kind
      exact (ofFunction kind).mem (mem_nodes_iff.mpr inside) ⟨word, Or.inr role⟩
  · have written : v.text ≠ "" := (collected.token.2.trans named) ▸ text
    obtain ⟨inside, definition, rfl⟩ := collected.of_var kind
    refine ⟨references_variable other inside written definition refers,
      references_variable_strict other inside written definition refers, ?_⟩
    intro w memberW definitionW same scope
    exact references_eq_of_scope other inside written definition refers (mem_nodes_iff.mp memberW)
      definitionW same scope ((same.trans named) ▸ other)

/-- A variable of a function that is set twice and then used, with the references of the use and
those of the first definition, which is not the one that the use refers to. -/
theorem references_listed_twice :
    ∃ r n s v w, (tree "set x\nfunction f\nset x 1\nset x 2\necho $x\nend").root? = some r ∧
      n.text ≠ "" ∧ n.text ≠ "argv" ∧ n.start = ⟨4, 6⟩ ∧ Definition.find? r n = some s ∧
      s.kind = .var ∧
      CollectedFrom "set x\nfunction f\nset x 1\nset x 2\necho $x\nend" s v ∧
      v.start = ⟨3, 4⟩ ∧ w.isVariableDefinition = true ∧ w.start = ⟨2, 4⟩ ∧
      ⟨"file:///a", s.selection⟩ ∈ Definition.references "file:///a" r n ∧
      (Definition.references "file:///a" r n).Pairwise (·.range.start < ·.range.start) ∧
      Definition.references "file:///a" r w = Definition.references "file:///a" r n := by
  have found : ((tree "set x\nfunction f\nset x 1\nset x 2\necho $x\nend").nodes.any fun n =>
      n.text != "" && n.text != "argv" && n.start == ⟨4, 6⟩ &&
        (Definition.find? (root "set x\nfunction f\nset x 1\nset x 2\necho $x\nend") n).any
          fun s => s.kind == .var && s.selection.start == ⟨3, 4⟩ &&
            (tree "set x\nfunction f\nset x 1\nset x 2\necho $x\nend").nodes.any fun w =>
              w.isVariableDefinition && w.text == s.name && w.start == ⟨2, 4⟩ &&
                (tree "set x\nfunction f\nset x 1\nset x 2\necho $x\nend").nodes.all fun v =>
                  v.range != s.selection ||
                    Definition.sameScope w.definitionScope? v.definitionScope?) = true := by
    decide +kernel
  obtain ⟨n, -, shape⟩ := List.any_eq_true.mp found
  simp only [Bool.and_eq_true, Bool.or_eq_true, beq_iff_eq, Option.any_eq_true, List.any_eq_true,
    List.all_eq_true, bne_iff_ne, ne_eq] at shape
  obtain ⟨⟨⟨text, other⟩, place⟩, s, refers, ⟨kind, start⟩, w, memberW, ⟨⟨definition, same⟩, first⟩,
    together⟩ := shape
  obtain ⟨anchored, ⟨v, collected⟩, ofVariable, -⟩ :=
    references_listed _ "file:///a" _ n s (root?_tree _) text other refers
  obtain ⟨-, strict, equal⟩ := ofVariable kind v collected
  have memberV := mem_nodes_iff.mpr (collected.of_var kind).1
  have scope := (sameScope_iff (mem_nodes_iff.mp memberW) (mem_nodes_iff.mp memberV)).mp
    ((together v memberV).resolve_left (not_not_intro collected.token.1))
  have startV : v.start = ⟨3, 4⟩ := (congrArg Range.start collected.token.1).trans start
  exact ⟨_, n, s, v, w, root?_tree _, text, other, place, refers, kind, collected, startV,
    definition, first, anchored, strict, equal w memberW definition same scope⟩

end FishNav.Script
