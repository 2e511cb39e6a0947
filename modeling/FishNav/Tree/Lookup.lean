import FishNav.Text.Lines
import FishNav.Tree.Node

/-!
# Finding nodes

By a position, by a cursor, which may stand just behind what it means, and by a range.
-/
namespace FishNav

/-- Whether a subtree takes in both ends of a range. -/
def Subtree.covers (s : Subtree) (r : Range) : Bool :=
  s.span.start.position ≤ r.start && r.stop ≤ s.span.stop.position

namespace Node

mutual

/-- Goes down from a subtree as long as one of the children will do: the first one that satisfies
`want`, unless one that satisfies `stops` comes before it. -/
def descend (stops want : Subtree → Bool) (put : Subtree → Node) : Subtree → Node
  | ⟨id, kind, span, text, children⟩ =>
    let n := put ⟨id, kind, span, text, children⟩
    (descendAmong stops want n 0 children).getD n

/-- Goes down from the first of some siblings that will do. -/
def descendAmong (stops want : Subtree → Bool) (parent : Node) (slot : Nat) :
    List Subtree → Option Node
  | [] => none
  | s :: ss =>
    if stops s then none
    else if want s then some (descend stops want (.child parent slot) s)
    else descendAmong stops want parent (slot + 1) ss

end

/-- The deepest node under `root` at a position. A node has the positions from its start up to, and
not with, its end; the root has its end too. -/
def at? (root : Node) (p : Position) : Option Node :=
  if p < root.start ∨ root.stop < p then none
  else
    some <| descend (fun s => p < s.span.start.position) (fun s => p < s.span.stop.position)
      root.put root.self

/-- Looks for a leaf on a line from a column back to the line's start. -/
def leafBefore? (root : Node) (line : Nat) : Nat → Option Node
  | 0 => leafAt? root ⟨line, 0⟩
  | column + 1 =>
    match leafAt? root ⟨line, column + 1⟩ with
    | some leaf => some leaf
    | none => leafBefore? root line column
where
  /-- The node at a position, if it has no children. -/
  leafAt? (root : Node) (p : Position) : Option Node :=
    (root.at? p).filter (·.self.children.isEmpty)

/-- The node that a cursor means: the last leaf at or before it on its line, and if there is none
the deepest node at the cursor. A column past the end of the line counts as the line's end. -/
def atCursor? (root : Node) (source : List Char) (p : Position) : Option Node :=
  match leafBefore? root p.line (min p.column (Text.lineLength p.line source)) with
  | some leaf => some leaf
  | none => root.at? p

/-- The deepest node under `root` that takes in a range; at each level the first one counts. -/
def atRange? (root : Node) (r : Range) : Option Node :=
  if root.self.covers r then
    some <| descend (fun _ => false) (·.covers r) root.put root.self
  else none

def isWithin (n : Node) (r : Range) : Bool := r.start ≤ n.start && n.stop ≤ r.stop

end Node

end FishNav
