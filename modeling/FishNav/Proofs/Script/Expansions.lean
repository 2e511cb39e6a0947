import FishNav.Proofs.Navigator
import FishNav.Proofs.Script.Leaves

/-!
# Cursors on an expansion

The dollar sign of an expansion is a leaf, and so is the name right behind it (`Expands.children`).
A cursor on one of them means this leaf and no other (`LeafAt.atCursor?`), and from the dollar sign
it goes on to the name (`Expands.nodeAt?`). So the answers are the same in all columns of `$name`,
and no file is asked for them, also where the expansion stands in the name of a file to be sourced
(`Navigator.answers_on_expansion`).
-/
namespace FishNav

namespace Script

open Cst
open Node (Descends)

variable {source : String} {e n : Node} {p : Position}

/-! ### Cursors on a leaf -/

theorem stop_column_le (inside : Descends (root source) n) :
    n.stop.column ≤ Text.lineLength n.stop.line source.toList := by
  obtain ⟨front, parts, stands⟩ := exists_stands inside
  obtain ⟨back, split⟩ := stands.within
  rw [stands.stop, split]
  exact Text.column_le_lineLength _ _

theorem leafBefore?_of_leafAt? {r : Node} {line column : Nat}
    (found : Node.leafBefore?.leafAt? r ⟨line, column⟩ = some n) :
    r.leafBefore? line column = some n := by
  cases column with
  | zero => exact found
  | succ column => rw [Node.leafBefore?, found]

/-- A cursor on the line on which a leaf ends means this leaf, if the leaf has its position. -/
theorem LeafAt.atCursor? (here : LeafAt source p n) (line : p.line = n.stop.line) :
    (root source).atCursor? source.toList p = some n := by
  have bound := stop_column_le here.inside
  have before : p.column < n.stop.column := by
    have order := here.has.2
    rw [Position.lt_def] at order
    omega
  have found : Node.leafBefore?.leafAt? (root source) p = some n := by
    rw [Node.leafBefore?.leafAt?, Option.filter_eq_some_iff, List.isEmpty_iff,
      ← Node.children_eq_nil_iff]
    exact ⟨here.found, here.leaf⟩
  rw [Node.atCursor?, line, Nat.min_eq_left (by omega), ← line, leafBefore?_of_leafAt? found]

/-! ### Names in expansions -/

/-- `n` is the name in the expansion `e`. -/
structure Expands (source : String) (e n : Node) : Prop where
  inside : Descends (root source) e
  kind : e.kind = .variableExpansion
  step : n ∈ e.children
  name : n.kind = .variableName

namespace Expands

/-- The name follows the dollar sign on the same line. -/
theorem place (expands : Expands source e n) :
    n.start = ⟨e.start.line, e.start.column + 1⟩ ∧ n.stop.line = e.start.line := by
  obtain ⟨front, cs, after, -, letters, -, stands, name⟩ :=
    stands_expansion expands.inside expands.kind expands.step expands.name
  have line : Text.IsLine ('$' :: cs) := by
    refine List.forall_mem_cons.mpr ⟨rfl, fun c member => bne_iff_ne.mpr ?_⟩
    rintro rfl
    exact absurd (letters '\n' member) (by decide)
  constructor
  · rw [name.start, stands.start, Mark.advance_append]
    rfl
  · have chars : ['$'] ++ charsOfAll [.text cs] = '$' :: cs := by simp
    rw [name.stop, stands.start, List.append_assoc, chars, Mark.advance_append,
      Text.position_advance_line line]

/-- The first child is the dollar sign, and the second one is the name. -/
theorem children (expands : Expands source e n) :
    ∃ d more, e.children = d :: n :: more ∧ d.kind = .anonymous ∧ d.text = "$" ∧
      d.start = e.start ∧ d.stop = n.start := by
  obtain ⟨front, cs, after, -, -, second, stands, name⟩ :=
    stands_expansion expands.inside expands.kind expands.step expands.name
  obtain ⟨d, more, whole⟩ : ∃ d more, e.children = d :: n :: more := by
    generalize e.children = all at second ⊢
    rcases all with _ | ⟨d, _ | ⟨m, more⟩⟩
    · cases second
    · cases second
    · exact ⟨d, more, by rw [Option.some.inj second]⟩
  have first : e.children[0]? = some d := by rw [whole, List.getElem?_cons_zero]
  obtain ⟨before, inner, after', split, count, dollar⟩ :=
    stands.child (Node.getElem?_self_children first)
  cases before with
  | nil =>
    obtain ⟨kind, rfl⟩ := Cst.node.inj (List.cons.inj split).1
    refine ⟨d, more, whole, kind.symm, dollar.spelled, ?_, ?_⟩
    · rw [dollar.start, stands.start, charsOfAll_nil, List.append_nil]
    · rw [dollar.stop, name.start]
      simp
  | cons q before =>
    obtain ⟨rfl, -⟩ := List.cons.inj split
    rw [List.countP_cons_of_pos rfl] at count
    cases count

theorem nameOfExpansion? (expands : Expands source e n) :
    Navigator.nameOfExpansion? e = some n := by
  obtain ⟨d, more, whole, token, -⟩ := expands.children
  have unnamed : d.isNamed = false := by rw [Node.isNamed, token]; rfl
  have named : n.isNamed = true := by rw [Node.isNamed, expands.name]; rfl
  simp [Navigator.nameOfExpansion?, Node.namedChildren, whole, unnamed, named, expands.name]

/-- Every column from the dollar sign up to the end of the name leads to the name. -/
theorem nodeAt? (expands : Expands source e n) {column : Nat} (start : e.start.column ≤ column)
    (stop : column < n.stop.column) :
    Navigator.nodeAt? (root source) source.toList ⟨e.start.line, column⟩ = some n := by
  obtain ⟨d, more, whole, token, dollar, front, next⟩ := expands.children
  obtain ⟨behind, line⟩ := expands.place
  rw [Navigator.nodeAt?]
  rcases Nat.eq_or_lt_of_le start with rfl | later
  · have step : d ∈ e.children := by rw [whole]; exact List.mem_cons_self
    have here : LeafAt source e.start d := by
      refine ⟨mem_nodes_iff.mpr (expands.inside.down step), ?_, le_of_eq front, ?_⟩
      · exact children_eq_nil (expands.inside.down step) (by rw [token]; rfl)
      · rw [next, behind]
        exact Or.inr ⟨rfl, Nat.lt_succ_self _⟩
    have expansion : Navigator.expansionOf? d = some e := by
      simp [Navigator.expansionOf?, token, dollar, Node.parent?_of_mem_children step, expands.kind]
    rw [here.atCursor? (by rw [next, behind]), Option.map_some, expansion, Option.bind_some,
      expands.nameOfExpansion?, Option.getD_some]
  · have here : LeafAt source ⟨e.start.line, column⟩ n := by
      refine ⟨mem_nodes_iff.mpr (expands.inside.down expands.step), ?_, ?_, ?_⟩
      · exact children_eq_nil (expands.inside.down expands.step) (by rw [expands.name]; rfl)
      · rw [behind]
        exact Position.le_def.mpr (Or.inr ⟨rfl, later⟩)
      · exact Position.lt_def.mpr (Or.inr ⟨line.symm, stop⟩)
    have plain : Navigator.expansionOf? n = none := by
      simp [Navigator.expansionOf?, expands.name]
    rw [here.atCursor? line.symm, Option.map_some, plain, Option.bind_none, Option.getD_none]

/-- The name stands in the expansion and so neither names a command nor is it an argument. -/
theorem not_in_command (expands : Expands source e n) :
    n.isCommandName = false ∧ Navigator.isSourceArgument n = false := by
  have parent := Node.parent?_of_mem_children expands.step
  simp [Node.isCommandName, Node.isNameOf, Navigator.isSourceArgument, Node.isCommand, parent,
    expands.kind]

end Expands

end Script

namespace Navigator

/-- A cursor on an expansion, anywhere from the dollar sign up to the end of the name, gives the
answers for the name, whatever is builtin and whatever files there are. -/
theorem answers_on_expansion (v : Navigator) (uri source : String) (r e n : Node) (column : Nat)
    (stored : v.documents.get? uri = some (Script.tree source))
    (top : (Script.tree source).root? = some r) (member : e ∈ (Script.tree source).nodes)
    (expansion : e.kind = .variableExpansion) (step : n ∈ e.children)
    (name : n.kind = .variableName) (start : e.start.column ≤ column)
    (stop : column < n.stop.column) :
    n.stop.line = e.start.line ∧
      v.locate? uri ⟨e.start.line, column⟩ = some (r, n) ∧
      v.definitions uri ⟨e.start.line, column⟩ = (Definition.origin v.isBuiltin uri r n []).2 ∧
      v.origin uri ⟨e.start.line, column⟩ = (Definition.origin v.isBuiltin uri r n []).1 ∧
      v.references uri ⟨e.start.line, column⟩ = Definition.references uri r n := by
  obtain rfl : Script.root source = r := Option.some.inj ((Script.root?_tree source).symm.trans top)
  have expands : Script.Expands source e n :=
    ⟨Script.mem_nodes_iff.mp member, expansion, step, name⟩
  have text : (Script.tree source).source = source :=
    (TreeDump.root?_of_load (Script.load_dump source)).1
  have found : v.locate? uri ⟨e.start.line, column⟩ = some (Script.root source, n) := by
    simp [locate?, stored, top, text, expands.nodeAt? start stop]
  obtain ⟨command, argument⟩ := expands.not_in_command
  refine ⟨expands.place.2, found, definitions_of_plain found command argument, ?_, ?_⟩
  · rw [origin, found]
  · rw [references, found]

def sourcingText : String := "set xs 1\nsource \"a$xs[1]\""

def sourcing : Navigator :=
  ⟨Documents.empty.insert "file:///a" (Script.tree sourcingText), Builtin.isBuiltin [],
    SearchPath.resolve [] fun _ => true, "/"⟩

/-- The dollar sign and the name lead to where the variable is set, and not to a file. -/
theorem answers_on_expansion_sourced :
    ∃ e ∈ (Script.tree sourcingText).nodes, ∃ n ∈ e.children,
      e.kind = .variableExpansion ∧ n.kind = .variableName ∧ e.start = ⟨1, 9⟩ ∧ n.stop = ⟨1, 12⟩ ∧
      ∀ column, 9 ≤ column → column < 12 →
        sourcing.definitions "file:///a" ⟨1, column⟩ = [⟨"file:///a", ⟨0, 4⟩, ⟨0, 6⟩⟩] := by
  have found : ((Script.tree sourcingText).nodes.any fun e =>
      e.children.any fun n => e.kind == .variableExpansion && n.kind == .variableName &&
        e.start == ⟨1, 9⟩ && n.stop == ⟨1, 12⟩ &&
        (Definition.origin sourcing.isBuiltin "file:///a" (Script.root sourcingText) n []).2 ==
          [⟨"file:///a", ⟨0, 4⟩, ⟨0, 6⟩⟩]) = true := by
    decide +kernel
  simp only [List.any_eq_true, Bool.and_eq_true, beq_iff_eq] at found
  obtain ⟨e, member, n, step, ⟨⟨⟨expansion, name⟩, start⟩, stop⟩, locations⟩ := found
  refine ⟨e, member, n, step, expansion, name, start, stop, ?_⟩
  intro column low high
  have answers := answers_on_expansion sourcing "file:///a" sourcingText _ e n column rfl
    (Script.root?_tree _) member expansion step name (by rw [start]; exact low)
    (by rw [stop]; exact high)
  rw [start] at answers
  rw [answers.2.2.1, locations]

end Navigator

end FishNav
