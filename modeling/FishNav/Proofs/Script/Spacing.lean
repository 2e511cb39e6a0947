import FishNav.Proofs.Script.Layout

/-!
# What stands between the nodes

Except in strings, no text gets lost between the nodes of a script: the children of a node follow
each other in the order of the text, and what is between them are separators only. A node starts
with its first child and ends with its last one, up to separators; the program may have separators
before its first child, and may stop at a closing parenthesis.
-/
namespace FishNav.Script

open Text Cst

/-! ### Nodes in the text -/

/-- Only separators stand from offset `a` up to offset `b`. -/
def SeparatorsBetween (source : String) (a b : Nat) : Prop :=
  ∃ gap, slice? source.toList a b = some gap ∧ ∀ c ∈ gap, isSeparator c = true

/-- The children of a node leave out nothing but separators. -/
structure Spaced (source : String) (n : Node) : Prop where
  siblings : ∀ i c d, n.children[i]? = some c → n.children[i + 1]? = some d →
    c.span.stop.byte ≤ d.span.start.byte ∧
      SeparatorsBetween source c.span.stop.byte d.span.start.byte
  first : ∀ c, n.children.head? = some c → n.kind ≠ .program → c.span.start = n.span.start
  last : ∀ c, n.children.getLast? = some c → n.kind ≠ .program →
    SeparatorsBetween source c.span.stop.byte n.span.stop.byte
  firstStatement : ∀ c, n.children.head? = some c → n.kind = .program →
    SeparatorsBetween source n.span.start.byte c.span.start.byte
  lastStatement : ∀ c, n.children.getLast? = some c → n.kind = .program →
    ∃ gap rest, dropBytes? c.span.stop.byte source.toList = some (gap ++ rest) ∧
      (∀ c ∈ gap, isSeparator c = true) ∧ (rest = [] ∨ rest.head? = some ')')

theorem separatorsBetween_append {source : String} (front gap back : List Char) {a b : Nat}
    (split : source.toList = front ++ gap ++ back) (run : Run isSeparator gap)
    (start : a = byteLength front) (stop : b = byteLength (front ++ gap)) :
    SeparatorsBetween source a b := by
  subst start stop
  exact ⟨gap, by rw [split, slice?_append], run⟩

namespace Stands

variable {source : String} {front : List Char} {parts : List Cst} {s : Subtree}

theorem start_byte {text : List Char} (stands : Stands text front parts s) :
    s.span.start.byte = byteLength front := by
  rw [stands.span, Mark.origin_advance_byte]

theorem stop_byte {text : List Char} (stands : Stands text front parts s) :
    s.span.stop.byte = byteLength (front ++ charsOfAll parts) := by
  rw [stands.span, Mark.origin_advance_byte]

/-- Only separators stand between two neighbours, except in a string. -/
theorem separators_between (stands : Stands source.toList front parts s)
    (string : s.kind ≠ .doubleQuoteString) {i : Nat} {c d : Subtree}
    (first : s.children[i]? = some c) (second : s.children[i + 1]? = some d) :
    c.span.stop.byte ≤ d.span.start.byte ∧
      SeparatorsBetween source c.span.stop.byte d.span.start.byte := by
  obtain ⟨before, inner, between, inner', after, split, count, left, right⟩ :=
    stands.siblings first second (Nat.lt_succ_self i)
  obtain ⟨back, within⟩ := right.within
  have rule := stands.rule
  rw [split, ← List.cons_append, ← List.append_assoc] at rule
  have spacing := (spacing_node rfl).mp (spacing_append.mp (rule.spacing_before string)).2
  refine ⟨?_, separatorsBetween_append _ (charsOfAll between) (charsOfAll inner' ++ back)
    (by rw [within]; simp) (run_charsOfAll spacing (by omega)) left.stop_byte right.start_byte⟩
  rw [left.stop_byte, right.start_byte, byteLength_append _ (charsOfAll between)]
  exact Nat.le_add_right _ _

theorem separators_before_first (stands : Stands source.toList front parts s)
    (string : s.kind ≠ .doubleQuoteString) {c : Subtree} (first : s.children[0]? = some c) :
    SeparatorsBetween source s.span.start.byte c.span.start.byte := by
  obtain ⟨before, inner, after, rfl, count, child⟩ := stands.child first
  obtain ⟨back, within⟩ := child.within
  exact separatorsBetween_append _ (charsOfAll before) (charsOfAll inner ++ back)
    (by rw [within]; simp) (run_charsOfAll (stands.rule.spacing_before string) count)
    stands.start_byte child.start_byte

/-- A node starts where its first child starts, except for the program. -/
theorem start_first (stands : Stands source.toList front parts s) (program : s.kind ≠ .program)
    {c : Subtree} (first : s.children[0]? = some c) : c.span.start = s.span.start := by
  obtain ⟨before, inner, after, rfl, count, child⟩ := stands.child first
  rw [child.span, stands.span, stands.rule.opening_chars program count, List.append_nil]

/-- The parts behind the last child hold no node. -/
theorem last_child (stands : Stands source.toList front parts s) {c : Subtree}
    (last : s.children.getLast? = some c) :
    ∃ before inner after, parts = before ++ .node c.kind inner :: after ∧
      after.countP isNode = 0 ∧ Stands source.toList (front ++ charsOfAll before) inner c := by
  rw [List.getLast?_eq_getElem?] at last
  obtain ⟨before, inner, after, rfl, count, child⟩ := stands.child last
  have length := stands.length_children
  rw [List.countP_append, List.countP_cons_of_pos rfl] at length
  exact ⟨before, inner, after, rfl, by omega, child⟩

theorem separators_after_last (stands : Stands source.toList front parts s)
    (program : s.kind ≠ .program) (string : s.kind ≠ .doubleQuoteString) {c : Subtree}
    (last : s.children.getLast? = some c) :
    SeparatorsBetween source c.span.stop.byte s.span.stop.byte := by
  obtain ⟨before, inner, after, rfl, count, child⟩ := stands.last_child last
  obtain ⟨back, within⟩ := stands.within
  exact separatorsBetween_append _ (charsOfAll after) back (by rw [within]; simp)
    (run_charsOfAll (stands.rule.spacing_after program string) count) child.stop_byte
    (by rw [stands.stop_byte]; simp)

/-- What follows the last statement of a program that covers the whole text. -/
theorem after_last_statement (stands : Stands source.toList front parts s)
    (program : s.kind = .program) (whole : source.toList = front ++ charsOfAll parts)
    {c : Subtree} (last : s.children.getLast? = some c) :
    ∃ gap rest, dropBytes? c.span.stop.byte source.toList = some (gap ++ rest) ∧
      (∀ c ∈ gap, isSeparator c = true) ∧ (rest = [] ∨ rest.head? = some ')') := by
  obtain ⟨before, inner, after, rfl, count, child⟩ := stands.last_child last
  have rule := stands.rule
  rw [program] at rule
  obtain ⟨gap, rest, split, run, final⟩ := rule.program_after count
  refine ⟨gap, rest, ?_, run, ?_⟩
  · rw [whole, child.stop_byte, ← split, charsOfAll_append, charsOfAll_cons, chars_node,
      ← List.append_assoc, ← List.append_assoc, dropBytes?_append]
  · cases rest with
    | nil => exact Or.inl rfl
    | cons c tail => exact Or.inr (by rw [final c tail rfl]; rfl)

end Stands

/-- Every node other than a string leaves out nothing but separators between, before and behind
its children. -/
theorem nodes_spaced (source : String) :
    ∀ n ∈ (tree source).nodes, n.kind ≠ .doubleQuoteString → Spaced source n := by
  intro n member string
  rw [mem_nodes_iff] at member
  obtain ⟨front, parts, stands⟩ := exists_stands member
  constructor
  case siblings =>
    intro i c d first second
    exact stands.separators_between string (Node.getElem?_self_children first)
      (Node.getElem?_self_children second)
  case first =>
    intro c first program
    rw [List.head?_eq_getElem?] at first
    exact stands.start_first program (Node.getElem?_self_children first)
  case last =>
    intro c last program
    exact stands.separators_after_last program string (Node.getLast?_self_children last)
  case firstStatement =>
    intro c first _
    rw [List.head?_eq_getElem?] at first
    exact stands.separators_before_first string (Node.getElem?_self_children first)
  case lastStatement =>
    intro c last program
    obtain rfl := eq_root_of_program member program
    have stands := (stands_root source).2
    exact stands.after_last_statement program (parts_spec source.toList).1.symm
      (Node.getLast?_self_children last)

/-- A conditional with two clauses behind it, in front of a parenthesis that was never opened. -/
theorem conditional_spaced :
    ∃ n ∈ (tree "if a; b (c);\nelse if d; else\te ;end )f").nodes,
      n.kind = .ifStatement ∧ n.children.length = 6 ∧
        Spaced "if a; b (c);\nelse if d; else\te ;end )f" n := by
  have found : ((tree "if a; b (c);\nelse if d; else\te ;end )f").nodes.find? fun n =>
      n.kind == .ifStatement && n.children.length == 6).isSome = true := by decide +kernel
  obtain ⟨n, found⟩ := Option.isSome_iff_exists.mp found
  have member := List.mem_of_find?_eq_some found
  have shape := List.find?_some found
  simp only [Bool.and_eq_true, beq_iff_eq] at shape
  exact ⟨n, member, shape.1, shape.2, nodes_spaced _ n member (by simp [shape.1])⟩

end FishNav.Script
