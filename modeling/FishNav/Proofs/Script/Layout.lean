import FishNav.Proofs.Script.Tree

/-!
# Where the nodes of a script stand

The kinds of the children of a node are those that the grammar allows (`child_kind`). Nodes lie
inside the nodes above them (`within_of_descends`), siblings follow each other (`siblings_le`), and
so two nodes without a way between them do not overlap (`apart`). In an expansion the name comes
right behind the dollar sign (`stands_expansion`).
-/
namespace FishNav.Script

open Cst
open Node (Descends)

variable {source : String}

/-! ### Kinds -/

/-- The rules limit the kinds of children. -/
theorem child_kind {p m : Node} (inside : Descends (root source) p) (step : m ∈ p.children) :
    m.kind ∈ childKinds p.kind := by
  obtain ⟨front, parts, stands⟩ := exists_stands inside
  obtain ⟨i, s, found, rfl⟩ := Node.mem_children_iff.mp step
  obtain ⟨before, inner, after, rfl, -, -⟩ := stands.child found
  exact stands.rule.kindsIn _ inner (by simp [Node.kind, Node.self])

theorem eq_of_leaf {n m : Node} (inside : Descends (root source) n) (leaf : childKinds n.kind = [])
    (way : Descends n m) : m = n := by
  rcases way.cases_child with rfl | ⟨c, step, -⟩
  · rfl
  · have kind := child_kind inside step
    simp [leaf] at kind

theorem children_eq_nil {n : Node} (inside : Descends (root source) n)
    (leaf : childKinds n.kind = []) : n.children = [] := by
  rw [List.eq_nil_iff_forall_not_mem]
  intro m step
  have kind := child_kind inside step
  rw [leaf] at kind
  cases kind

theorem not_program_mem_childKinds (kind : Kind) : .program ∉ childKinds kind := by
  cases kind <;> decide

theorem child_ne_program {p m : Node} (inside : Descends (root source) p)
    (step : m ∈ p.children) : m.kind ≠ .program := by
  intro program
  have kind := child_kind inside step
  rw [program] at kind
  exact not_program_mem_childKinds _ kind

/-- The root is the only program. -/
theorem eq_root_of_program {n : Node} (inside : Descends (root source) n)
    (program : n.kind = .program) : n = root source := by
  cases inside with
  | here => rfl
  | down way step => exact absurd program (child_ne_program way step)

/-! ### Places -/

theorem Stands.start {text front : List Char} {parts : List Cst} {n : Node}
    (stands : Stands text front parts n.self) :
    n.start = (Mark.origin.advance front).position := by
  rw [Node.start, Node.span, stands.span]

theorem Stands.stop {text front : List Char} {parts : List Cst} {n : Node}
    (stands : Stands text front parts n.self) :
    n.stop = (Mark.origin.advance (front ++ charsOfAll parts)).position := by
  rw [Node.stop, Node.span, stands.span]

theorem position_le_append (front more : List Char) :
    (Mark.origin.advance front).position ≤ (Mark.origin.advance (front ++ more)).position := by
  rw [Mark.advance_append]
  exact Mark.position_le_advance _ _

theorem position_lt_append (front : List Char) {more : List Char} (some : more ≠ []) :
    (Mark.origin.advance front).position < (Mark.origin.advance (front ++ more)).position := by
  rw [Mark.advance_append]
  exact Mark.position_lt_advance _ some

theorem start_le_stop {n : Node} (inside : Descends (root source) n) : n.start ≤ n.stop := by
  obtain ⟨front, parts, stands⟩ := exists_stands inside
  rw [stands.start, stands.stop]
  exact position_le_append _ _

/-- A child lies inside its parent. -/
theorem child_within {p m : Node} (inside : Descends (root source) p) (step : m ∈ p.children) :
    p.start ≤ m.start ∧ m.stop ≤ p.stop := by
  obtain ⟨front, parts, stands⟩ := exists_stands inside
  obtain ⟨i, s, found, rfl⟩ := Node.mem_children_iff.mp step
  obtain ⟨before, inner, after, rfl, -, child⟩ := stands.child found
  have child : Stands source.toList (front ++ charsOfAll before) inner (Node.child p i s).self :=
    child
  rw [stands.start, stands.stop, child.start, child.stop]
  refine ⟨position_le_append _ _, ?_⟩
  have le := position_le_append (front ++ charsOfAll before ++ charsOfAll inner) (charsOfAll after)
  simpa using le

/-- Siblings do not overlap, and they stand in the order of the text. -/
theorem siblings_le {p c d : Node} {i j : Nat} (inside : Descends (root source) p)
    (first : p.children[i]? = some c) (second : p.children[j]? = some d) (order : i < j) :
    c.stop ≤ d.start := by
  obtain ⟨front, parts, stands⟩ := exists_stands inside
  obtain ⟨before, inner, between, inner', after, -, -, left, right⟩ :=
    stands.siblings (Node.getElem?_self_children first) (Node.getElem?_self_children second) order
  rw [left.stop, right.start]
  exact position_le_append _ _

theorem within_of_descends {a n : Node} (inside : Descends (root source) a) (way : Descends a n) :
    a.start ≤ n.start ∧ n.stop ≤ a.stop := by
  induction way with
  | here => exact ⟨le_refl _, le_refl _⟩
  | down way step ih =>
    have within := child_within (inside.trans way) step
    exact ⟨le_trans ih.1 within.1, le_trans within.2 ih.2⟩

theorem statement_mem_childKinds {kind kind' : Kind} (member : kind' ∈ childKinds kind)
    (statement : kind' = .comment ∨ kind' = .functionDefinition) :
    .functionDefinition ∈ childKinds kind := by
  rcases statement with rfl | rfl
  · revert member
    cases kind <;> decide
  · exact member

/-- Comments and functions stand behind the start of the node that they are in, the program
apart. -/
theorem opening_lt_statement {p m : Node} (inside : Descends (root source) p)
    (program : p.kind ≠ .program) (step : m ∈ p.children)
    (statement : m.kind = .comment ∨ m.kind = .functionDefinition) : p.start < m.start := by
  have body := statement_mem_childKinds (child_kind inside step) statement
  obtain ⟨front, parts, stands⟩ := exists_stands inside
  obtain ⟨key, more, some, opening⟩ := stands.rule.opening_token program body
  obtain ⟨i, found⟩ := List.mem_iff_getElem?.mp step
  obtain ⟨before, inner, after, split, -, child⟩ := stands.child (Node.getElem?_self_children found)
  rw [stands.start, child.start]
  cases before with
  | nil =>
    have kind : Kind.anonymous = m.kind :=
      (Cst.node.inj (List.cons.inj (opening.symm.trans split)).1).1
    rw [← kind] at statement
    simp at statement
  | cons q before =>
    obtain ⟨rfl, -⟩ := List.cons.inj (opening.symm.trans split)
    exact position_lt_append front (by simp [some])

/-- Two nodes without a way between them stand one behind the other. -/
theorem apart {m n : Node} (left : Descends (root source) m) (right : Descends (root source) n) :
    Descends m n ∨ Descends n m ∨ m.stop ≤ n.start ∨ n.stop ≤ m.start := by
  rcases left.compare right with below | above | ⟨p, way, c, d, i, j, other, hc, hd, hm, hn⟩
  · exact Or.inl below
  · exact Or.inr (Or.inl above)
  · have insideC := way.down (List.mem_of_getElem? hc)
    have insideD := way.down (List.mem_of_getElem? hd)
    have aroundM := within_of_descends insideC hm
    have aroundN := within_of_descends insideD hn
    rcases Nat.lt_or_gt_of_ne other with order | order
    · have between := siblings_le way hc hd order
      exact Or.inr (Or.inr (Or.inl (le_trans aroundM.2 (le_trans between aroundN.1))))
    · have between := siblings_le way hd hc order
      exact Or.inr (Or.inr (Or.inr (le_trans aroundN.2 (le_trans between aroundM.1))))

/-- A leaf that starts behind its parent shares its range with no other node that has a text. -/
theorem eq_of_range {m n : Node} (left : Descends (root source) m) (leaf : childKinds m.kind = [])
    (behind : ∀ p, m.parent? = some p → p.start < m.start) (right : Descends (root source) n)
    (strict : n.start < n.stop) (same : m.range = n.range) : m = n := by
  have start : m.start = n.start := congrArg Range.start same
  have stop : m.stop = n.stop := congrArg Range.stop same
  rcases apart left right with below | above | before | after
  · exact (eq_of_leaf left leaf below).symm
  · cases above with
    | here => rfl
    | down way step =>
      have around := (within_of_descends right way).1
      have later := behind _ (Node.parent?_of_mem_children step)
      exact absurd start (ne_of_gt (lt_of_le_of_lt around later))
  · exact absurd (stop ▸ before) (not_le_of_gt strict)
  · exact absurd (start ▸ after) (not_le_of_gt strict)

/-! ### Expansions -/

/-- An expansion with a name is a dollar sign, the name, and perhaps more. -/
theorem stands_expansion {e n : Node} (inside : Descends (root source) e)
    (kind : e.kind = .variableExpansion) (step : n ∈ e.children) (name : n.kind = .variableName) :
    ∃ front cs after, cs ≠ [] ∧ Run isNameChar cs ∧ e.children[1]? = some n ∧
      Stands source.toList front (.token ['$'] :: .leaf .variableName cs :: after) e.self ∧
      Stands source.toList (front ++ ['$']) [.text cs] n.self := by
  obtain ⟨front, parts, stands⟩ := exists_stands inside
  obtain ⟨i, found⟩ := List.mem_iff_getElem?.mp step
  obtain ⟨before, inner, after, rfl, count, child⟩ :=
    stands.child (Node.getElem?_self_children found)
  rw [show n.self.kind = .variableName from name] at stands
  have rule := stands.rule
  rw [show e.self.kind = .variableExpansion from kind] at rule
  obtain ⟨rfl, cs, filled, letters, rfl⟩ := rule.name_in_expansion
  obtain rfl : 1 = i := count
  refine ⟨front, cs, after, filled, letters, found, stands, ?_⟩
  simpa using child

end FishNav.Script
