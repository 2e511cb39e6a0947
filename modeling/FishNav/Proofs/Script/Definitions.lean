import FishNav.Proofs.Role
import FishNav.Proofs.Script.Layout

/-!
# Where variables are brought in

In a script, a node that brings in a variable starts behind the start of its parent
(`parent_before_definition`), and strictly behind the end of every sibling before it that is not a
keyword (`sibling_before_definition`): words of a command or of the head of a function have gaps
between them, and in a `for` loop the name is the first node behind the keyword.
-/
namespace FishNav.Script

open Cst
open Node (Descends)

variable {source : String} {p c v : Node}

/-- What stands before a node that brings in a variable: only keywords, or something that ends
with a gap. -/
theorem Form.before_definition {kind kind' : Kind} {before inner after : List Cst}
    (rule : Form kind (before ++ .node kind' inner :: after))
    (role : kind' = .variableName ∧ kind = .forStatement ∨
      kind' = .word ∧ (kind = .command ∨ kind = .functionDefinition)) :
    KindsIn [.anonymous] before ∨ ∃ front cs, before = front ++ [.text cs] ∧ cs ≠ [] := by
  rcases role with ⟨rfl, rfl⟩ | ⟨rfl, rfl | rfl⟩
  · obtain ⟨cs, rfl⟩ := rule.name_in_for
    exact Or.inl (by simp)
  · rcases rule.gap_in_command with rfl | rfl | ⟨front, cs, rfl, gap⟩
    · exact Or.inl (by simp)
    · exact Or.inl (by simp)
    · exact Or.inr ⟨front, cs, rfl, gap.1⟩
  · rcases rule.gap_in_function with ⟨cs, rfl⟩ | ⟨front, cs, rfl, gap⟩
    · exact Or.inl (by simp)
    · exact Or.inr ⟨front, cs, rfl, gap.1⟩

theorem charsOfAll_ne_nil {parts : List Cst} {cs : List Char} (member : .text cs ∈ parts)
    (some : cs ≠ []) : charsOfAll parts ≠ [] := by
  obtain ⟨before, after, rfl⟩ := List.append_of_mem member
  simp [some]

theorem kinds_of_definition (parent : v.parent? = some p)
    (definition : v.isVariableDefinition = true) :
    v.kind = .variableName ∧ p.kind = .forStatement ∨
      v.kind = .word ∧ (p.kind = .command ∨ p.kind = .functionDefinition) := by
  obtain ⟨p', parent', role⟩ := Node.isVariableDefinition_cases definition
  obtain rfl : p = p' := Option.some.inj (parent.symm.trans parent')
  rcases role with loop | ⟨kind, around, -⟩
  · exact Or.inl loop
  · exact Or.inr ⟨kind, around⟩

theorem leaf_of_definition (definition : v.isVariableDefinition = true) :
    childKinds v.kind = [] ∧ v.isNamed = true := by
  obtain ⟨p, parent, -⟩ := Node.isVariableDefinition_cases definition
  rcases kinds_of_definition parent definition with ⟨kind, -⟩ | ⟨kind, -⟩ <;>
    simp [Node.isNamed, kind, childKinds, Kind.isNamed]

/-- A node that brings in a variable has nothing below it. -/
theorem not_definition_of_child (inside : Descends (root source) p) (step : c ∈ p.children) :
    p.isVariableDefinition = false := by
  refine Bool.eq_false_iff.mpr fun definition => ?_
  have kind := child_kind inside step
  simp [(leaf_of_definition definition).1] at kind

theorem sibling_before_definition {i j : Nat} (inside : Descends (root source) p)
    (first : p.children[i]? = some c) (second : p.children[j]? = some v) (order : i < j)
    (definition : v.isVariableDefinition = true) : c.kind = .anonymous ∨ c.stop < v.start := by
  obtain ⟨front, parts, stands⟩ := exists_stands inside
  obtain ⟨before, inner, between, inner', after, rfl, -, left, right⟩ :=
    stands.siblings (Node.getElem?_self_children first) (Node.getElem?_self_children second) order
  have role := kinds_of_definition
    (Node.parent?_of_mem_children (List.mem_of_getElem? second)) definition
  have rule := stands.rule
  rw [← List.cons_append, ← List.append_assoc] at rule
  rcases rule.before_definition role with keywords | ⟨head, cs, split, some⟩
  · have kind := keywords c.self.kind inner (by simp)
    exact Or.inl (List.mem_singleton.mp kind)
  · -- the last part before `v` is plain text, so it stands behind `c`
    have last : between.getLast?.getD (.node c.self.kind inner) = .text cs := by
      simpa [List.getLast?_cons] using congrArg List.getLast? split
    cases final : between.getLast? with
    | none => simp [final] at last
    | some q =>
      obtain rfl : q = .text cs := by simpa [final] using last
      have gap := charsOfAll_ne_nil (List.mem_of_getLast? final) some
      rw [left.stop, right.start]
      exact Or.inr (position_lt_append _ gap)

/-- A construct starts before the variable that it brings in. -/
theorem parent_before_definition (inside : Descends (root source) p) (step : v ∈ p.children)
    (definition : v.isVariableDefinition = true) : p.start < v.start := by
  obtain ⟨p', parent, role⟩ := Node.isVariableDefinition_cases definition
  obtain rfl : p = p' := Option.some.inj ((Node.parent?_of_mem_children step).symm.trans parent)
  rcases role with ⟨kind, loop⟩ | ⟨-, -, m, member, same⟩
  · obtain ⟨front, parts, stands⟩ := exists_stands inside
    obtain ⟨j, found⟩ := List.mem_iff_getElem?.mp step
    obtain ⟨before, inner, after, rfl, -, child⟩ := stands.child (Node.getElem?_self_children found)
    have rule := stands.rule
    rw [show p.self.kind = .forStatement from loop,
      show v.self.kind = .variableName from kind] at rule
    obtain ⟨cs, rfl⟩ := rule.name_in_for
    rw [stands.start, child.start]
    exact position_lt_append front (by simp [forWord])
  · obtain ⟨name, i, j, -, named, order, first, second⟩ := Node.exists_before_of_mem_tail member
    have target := inside.down (List.mem_of_getElem? second)
    obtain rfl : m = v := (same_iff target (inside.down step)).mp same
    have before := inside.down (List.mem_of_getElem? first)
    rcases sibling_before_definition inside first second order definition with token | gap
    · simp [Node.isNamed, Kind.isNamed, token] at named
    · have within := child_within inside (List.mem_of_getElem? first)
      exact lt_of_le_of_lt (le_trans within.1 (start_le_stop before)) gap

/-- What brings in a variable shares its range with no other node that has a text. -/
theorem eq_of_definition_range {n : Node} (insideV : Descends (root source) v)
    (definition : v.isVariableDefinition = true) (inside : Descends (root source) n)
    (strict : n.start < n.stop) (same : v.range = n.range) : v = n := by
  refine eq_of_range insideV (leaf_of_definition definition).1 (fun p parent => ?_) inside strict
    same
  obtain ⟨way, step⟩ := insideV.of_parent? parent
  exact parent_before_definition way step definition

end FishNav.Script
