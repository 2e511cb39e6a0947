import FishNav.Role
import FishNav.Symbol.Basic
import FishNav.Tree.Comments
import FishNav.Tree.Lookup

/-!
# The outline of a document

The symbols of a document, nested as its functions are. What is defined inside a function stands
below the function and nowhere else. A function without a name has no symbol; what is inside it
belongs to what is around it.
-/
namespace FishNav

/-- The construct that brings in a variable: the command, the loop, or the name itself. -/
def Node.declaration (n : Node) : Node :=
  match n.parent? with
  | some p => if p.isCommand || p.kind.isLoop then p else n
  | none => n

namespace Symbol

/-- The symbol of a function with these symbols inside it. -/
def ofFunction? (n : Node) (children : List Symbol) : Option Symbol :=
  n.firstNamedChild?.map fun name =>
    { name := name.text
      kind := .function
      range := n.commentedRange
      selection := name.range
      detail := none
      children : Symbol }.withDetail n.comments

/-- The symbol of a variable, from the node that brings it in. -/
def ofVariable (n : Node) : Symbol :=
  { name := n.text
    kind := .var
    range := n.declaration.commentedRange
    selection := n.range
    detail := none
    children := [] : Symbol }.withDetail n.declaration.comments

end Symbol

namespace Outline

mutual

/-- The symbols of a subtree; `put` gives the handle of the subtree at hand. -/
def collect (put : Subtree → Node) : Subtree → List Symbol
  | ⟨id, kind, span, text, children⟩ =>
    let n := put ⟨id, kind, span, text, children⟩
    if n.kind.isDefinition then
      let inner := collectAll n 0 children
      match Symbol.ofFunction? n inner with
      | some symbol => [symbol]
      | none => inner
    else if n.isVariableDefinition then [.ofVariable n]
    else collectAll n 0 children

/-- The symbols of subtrees under one parent, the first of them at place `slot`. -/
def collectAll (parent : Node) (slot : Nat) : List Subtree → List Symbol
  | [] => []
  | s :: ss => collect (.child parent slot) s ++ collectAll parent (slot + 1) ss

end

end Outline

/-- The symbols of everything under a node, in the order of the text. -/
def Node.symbols (n : Node) : List Symbol := Outline.collect n.put n.self

/-- The symbols under a node with all that is defined inside a function, however deep, directly
below that function. -/
def Node.shallowSymbols (n : Node) : List Symbol :=
  n.symbols.map fun s =>
    if s.isFunction then
      { s with children := (Symbol.flatten s.children).map Symbol.leaf }
    else s

/-- The node that a symbol's name is. -/
def Symbol.node? (root : Node) (s : Symbol) : Option Node := root.atRange? s.selection

end FishNav
