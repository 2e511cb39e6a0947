import FishNav.Proofs.Tree.Nodes
import FishNav.Role

/-!
# What brings in a variable

A node that brings in a variable is the name in a `for` loop, or a word of a command or of the head
of a function behind the first named child (`isVariableDefinition_cases`).
-/
namespace FishNav.Node

theorem mem_of_setTarget? {args : List Node} {a : Node} (target : setTarget? args = some a) :
    a ∈ args := by
  fun_induction setTarget? args with
  | case1 => cases target
  | case2 => cases target
  | case3 b rest _ _ ih => exact List.mem_cons_of_mem b (ih target)
  | case4 b rest _ => exact Option.some.inj target ▸ List.mem_cons_self

theorem exists_mem_of_isReadTarget {n : Node} {skip : Bool} {args : List Node}
    (target : isReadTarget n skip args = true) : ∃ a ∈ args, a.same n = true := by
  fun_induction isReadTarget n skip args with
  | case1 => cases target
  | case2 => cases target
  | case3 a rest _ ih => exact List.exists_mem_cons_of_exists (ih target)
  | case4 => cases target
  | case5 _ a rest _ _ _ ih => exact List.exists_mem_cons_of_exists (ih target)
  | case6 _ a rest _ _ same => exact ⟨a, List.mem_cons_self, same⟩
  | case7 _ a rest _ _ _ ih => exact List.exists_mem_cons_of_exists (ih target)

theorem exists_mem_of_isArgumentName {n : Node} {collecting : Bool} {args : List Node}
    (target : isArgumentName n collecting args = true) : ∃ a ∈ args, a.same n = true := by
  fun_induction isArgumentName n collecting args with
  | case1 => cases target
  | case2 => cases target
  | case3 _ a rest _ _ ih => exact List.exists_mem_cons_of_exists (ih target)
  | case4 _ a rest _ _ same => exact ⟨a, List.mem_cons_self, same⟩
  | case5 _ a rest _ _ _ ih => exact List.exists_mem_cons_of_exists (ih target)

theorem exists_mem_of_isSetBy {n command : Node} (target : n.isSetBy command = true) :
    ∃ a ∈ command.namedChildren.tail, a.same n = true := by
  unfold isSetBy at target
  split at target
  · cases target
  · next name args all =>
    rw [all, List.tail_cons]
    split at target
    · cases target
    split at target
    · obtain ⟨a, found, same⟩ := (Option.any_eq_true _ _).mp target
      exact ⟨a, mem_of_setTarget? found, same⟩
    split at target
    · exact exists_mem_of_isReadTarget target
    · cases target

/-- The kinds of a node that brings in a variable and of its parent. -/
theorem isVariableDefinition_cases {n : Node} (definition : n.isVariableDefinition = true) :
    ∃ p, n.parent? = some p ∧
      ((n.kind = .variableName ∧ p.kind = .forStatement) ∨
        (n.kind = .word ∧ (p.kind = .command ∨ p.kind = .functionDefinition) ∧
          ∃ m ∈ p.namedChildren.tail, m.same n = true)) := by
  unfold isVariableDefinition at definition
  split at definition
  · cases definition
  · next p parent =>
    refine ⟨p, parent, ?_⟩
    split at definition
    · next kind around => exact Or.inl ⟨kind, around⟩
    · next kind around =>
      exact Or.inr ⟨kind, Or.inl around, exists_mem_of_isSetBy definition⟩
    · next kind around =>
      rw [List.drop_one] at definition
      exact Or.inr ⟨kind, Or.inr around, exists_mem_of_isArgumentName definition⟩
    · cases definition

theorem not_isVariableDefinition_of_function {n : Node} (kind : n.kind = .functionDefinition) :
    n.isVariableDefinition = false := by
  refine Bool.eq_false_iff.mpr fun definition => ?_
  obtain ⟨p, -, ⟨other, -⟩ | ⟨other, -⟩⟩ := isVariableDefinition_cases definition
  · cases kind.symm.trans other
  · cases kind.symm.trans other

/-- A named child that is not the first one has a named sibling before it. -/
theorem exists_before_of_mem_tail {p m : Node} (member : m ∈ p.namedChildren.tail) :
    ∃ (name : Node) (i j : Nat), p.firstNamedChild? = some name ∧ name.isNamed = true ∧ i < j ∧
      p.children[i]? = some name ∧ p.children[j]? = some m := by
  cases all : p.namedChildren with
  | nil => simp [all] at member
  | cons name rest =>
    rw [all, List.tail_cons] at member
    have first : p.firstNamedChild? = some name := by
      rw [firstNamedChild?, ← List.head?_filter, ← namedChildren, all, List.head?_cons]
    obtain ⟨front, back, split, -, named, filtered⟩ := List.filter_eq_cons_iff.mp all
    rw [← filtered] at member
    obtain ⟨k, found⟩ := List.mem_iff_getElem?.mp (List.mem_filter.mp member).1
    refine ⟨name, front.length, front.length + (k + 1), first, named, by omega, ?_, ?_⟩
    · rw [split, List.getElem?_append_right (Nat.le_refl _), Nat.sub_self, List.getElem?_cons_zero]
    · rw [split, List.getElem?_append_right (Nat.le_add_right _ _), Nat.add_sub_cancel_left,
        List.getElem?_cons_succ, found]

end FishNav.Node
