import FishNav.Tree.Builder

/-!
# Nodes and how to get around

A subtree is a node with everything below it. A node handle is a subtree together with the way up:
its place among its siblings and its parent, up to the root. Moving down is recursion on the
subtree, moving up is recursion on the handle.
-/
namespace FishNav

/-- A node with everything below it, and the text it covers. -/
structure Subtree where
  id : Nat
  kind : Kind
  span : Span
  text : String
  children : List Subtree
  deriving Repr

/-- A node in its place. -/
inductive Node where
  | root (self : Subtree)
  | child (parent : Node) (slot : Nat) (self : Subtree)
  deriving Repr

namespace Node

def self : Node → Subtree
  | root s => s
  | child _ _ s => s

def parent? : Node → Option Node
  | root _ => none
  | child p _ _ => some p

def id (n : Node) : Nat := n.self.id

def kind (n : Node) : Kind := n.self.kind

def span (n : Node) : Span := n.self.span

def text (n : Node) : String := n.self.text

def start (n : Node) : Position := n.span.start.position

def stop (n : Node) : Position := n.span.stop.position

def range (n : Node) : Range := n.span.range

def isNamed (n : Node) : Bool := n.kind.isNamed

def same (m n : Node) : Bool := m.id == n.id

/-- The nodes above `n`, nearest first. -/
def ancestors : Node → List Node
  | root _ => []
  | child p _ _ => p :: ancestors p

/-- Handles for siblings under `n`, the first of them at place `slot`. -/
def place (n : Node) (slot : Nat) : List Subtree → List Node
  | [] => []
  | s :: ss => .child n slot s :: place n (slot + 1) ss

def children (n : Node) : List Node := n.place 0 n.self.children

def child? (n : Node) (slot : Nat) : Option Node :=
  n.self.children[slot]?.map (.child n slot)

def namedChildren (n : Node) : List Node := n.children.filter isNamed

def firstNamedChild? (n : Node) : Option Node := n.children.find? isNamed

/-! ### Siblings -/

/-- The siblings before a node, nearest first. -/
def before : Node → List Node
  | root _ => []
  | child p slot _ => (p.children.take slot).reverse

/-- The siblings behind a node, nearest first. -/
def after : Node → List Node
  | root _ => []
  | child p slot _ => p.children.drop (slot + 1)

def previousSibling? (n : Node) : Option Node := n.before.head?

def nextSibling? (n : Node) : Option Node := n.after.head?

/-- The nearest named sibling before `n`. -/
def previousNamed? (n : Node) : Option Node := n.before.find? isNamed

def nextNamed? (n : Node) : Option Node := n.after.find? isNamed

/-! ### Walks -/

/-- The nearest node above `n` that satisfies `p`. -/
def findAbove? (p : Node → Bool) (n : Node) : Option Node := n.ancestors.find? p

mutual

/-- A node and everything below it, each node before its children; `put` gives the handle of the
subtree at hand. -/
def listing (put : Subtree → Node) : Subtree → List Node
  | ⟨id, kind, span, text, children⟩ =>
    let n := put ⟨id, kind, span, text, children⟩
    n :: listingOfAll n 0 children

/-- Subtrees under one parent and everything below them. -/
def listingOfAll (parent : Node) (slot : Nat) : List Subtree → List Node
  | [] => []
  | s :: ss => listing (.child parent slot) s ++ listingOfAll parent (slot + 1) ss

end

def put : Node → Subtree → Node
  | root _, s => root s
  | child p slot _, s => child p slot s

/-- `n` and everything below it, each node before its children. -/
def preorder (n : Node) : List Node := listing n.put n.self

mutual

def heightOf : Subtree → Nat
  | ⟨_, _, _, _, children⟩ => heightOfAll children + 1

def heightOfAll : List Subtree → Nat
  | [] => 0
  | s :: ss => max (heightOf s) (heightOfAll ss)

end

/-- The nodes of one level and of the `n` levels below it. -/
def levels : Nat → List Node → List Node
  | 0, _ => []
  | n + 1, level => level ++ levels n (level.flatMap children)

/-- `n` and everything below it, level by level. -/
def breadthFirst (n : Node) : List Node := levels (heightOf n.self) [n]

end Node

namespace Tree

/-- Grows subtrees from the entries of a tree, from the last entry back to the first: when an entry
comes up, the subtrees of its children are there. The result starts with the first entry's. -/
def grow (text : List Char) : Nat → List Entry → List Subtree
  | _, [] => []
  | id, e :: later =>
    let grown := grow text (id + 1) later
    let covered := (Text.slice? text e.span.start.byte e.span.stop.byte).getD []
    { id
      kind := e.kind
      span := e.span
      text := String.ofList covered
      children := e.children.filterMap fun c => if id < c then grown[c - (id + 1)]? else none } ::
      grown

def root? (t : Tree) : Option Node :=
  (grow t.source.toList 0 t.entries.toList).head?.map .root

def size (t : Tree) : Nat := t.entries.size

def nodes (t : Tree) : List Node :=
  match t.root? with
  | none => []
  | some root => root.preorder

def node? (t : Tree) (id : Nat) : Option Node := t.nodes.find? (·.id == id)

end Tree

end FishNav
