import FishNav.Text.Bytes
import FishNav.Tree.Arena
import FishNav.Tree.Dump

/-!
# Building trees

A tree is put together node by node. Each node has a number, its place in the order in which the
nodes were added, and knows its parent's number, its place among its parent's children, and its
own children. `finish` hands out a tree only if the spans of the nodes describe the text: they lie
inside it, do not run backwards, cut no character, and every node but the first lies inside its
parent. A builder carries the agreement of its links, and a tree also that it has no fault, so there
are no other trees.
-/
namespace FishNav

/-- Why a collection of nodes is no tree of its text. -/
inductive Fault where
  | outOfBounds (node start stop length : Nat)
  | inverted (node : Nat) (start stop : Position)
  | splitsCharacter (node offset : Nat)
  | orphan (node : Nat)
  | outsideParent (node parent : Nat)
  deriving DecidableEq, Repr

namespace Fault

private def renderPoint (p : Position) : String :=
  "Point \x7b row: " ++ toString p.line ++ ", column: " ++ toString p.column ++ " \x7d"

def message : Fault → String
  | outOfBounds node start stop length =>
    "Node " ++ toString node ++ " spans bytes " ++ toString start ++ ".." ++ toString stop ++
      " but source is " ++ toString length ++ " bytes"
  | inverted node start stop =>
    "Node " ++ toString node ++ " ends before it starts (" ++ renderPoint start ++ " > " ++
      renderPoint stop ++ ")"
  | splitsCharacter node offset =>
    "Node " ++ toString node ++ " byte offset " ++ toString offset ++
      " is not on a char boundary"
  | orphan node => "Node " ++ toString node ++ " has no parent but is not the root"
  | outsideParent node parent =>
    "Node " ++ toString node ++ " lies outside its parent " ++ toString parent

end Fault

namespace Builder

/-- The fault of one node, if it has one. Bounds are looked at first, then the order of the ends,
then character boundaries, then the parent. -/
def faultOf? (text : List Char) (entries : Array Entry) (node : Nat) (e : Entry) : Option Fault :=
  let length := Text.byteLength text
  let start := e.span.start
  let stop := e.span.stop
  if length < start.byte ∨ length < stop.byte then
    some (.outOfBounds node start.byte stop.byte length)
  else if stop.byte < start.byte ∨ stop.position < start.position then
    some (.inverted node start.position stop.position)
  else if !Text.isBoundary text start.byte then some (.splitsCharacter node start.byte)
  else if !Text.isBoundary text stop.byte then some (.splitsCharacter node stop.byte)
  else
    match e.parent with
    | none => if 0 < node then some (.orphan node) else none
    | some p =>
      match entries[p]? with
      | none => none
      | some outer =>
        if start.byte < outer.span.start.byte ∨ outer.span.stop.byte < stop.byte then
          some (.outsideParent node p)
        else none

/-- The first fault in the order of the nodes. -/
def faultIn? (source : String) (entries : Array Entry) : Option Fault :=
  let text := source.toList
  (entries.toList.zipIdx).findSome? fun (e, node) => faultOf? text entries node e

end Builder

/-- A text and the checked nodes that describe it; node 0 is the root. -/
structure Tree where
  source : String
  entries : Array Entry
  links : Builder.Links entries.toList
  faultless : Builder.faultIn? source entries = none
  deriving Repr

structure Builder where
  source : String
  entries : Array Entry
  links : Builder.Links entries.toList
  deriving Repr

namespace Builder

def empty (source : String) : Builder := ⟨source, #[], .nil⟩

/-- The number the next node will get. -/
def size (b : Builder) : Nat := b.entries.size

/-- Adds a node as the last child of `parent`, or one without a parent. -/
def push (b : Builder) (parent : Option Nat) (kind : Kind) (span : Span) : Builder :=
  ⟨b.source, pushEntry b.entries parent kind span, links_pushEntry b.links parent kind span⟩

def setStop (b : Builder) (node : Nat) (stop : Mark) : Builder :=
  ⟨b.source, moveStop b.entries node stop, links_moveStop b.links node stop⟩

def firstFault? (b : Builder) : Option Fault := faultIn? b.source b.entries

/-- The tree, if the nodes describe the text. -/
def finish (b : Builder) : Except Fault Tree :=
  match found : b.firstFault? with
  | some fault => .error fault
  | none => .ok ⟨b.source, b.entries, b.links, found⟩

mutual

/-- Adds a dumped node and everything below it, each node before its children. -/
def pushDump (parent : Option Nat) (b : Builder) : Dump → Builder
  | ⟨tag, named, span, children⟩ =>
    pushDumps (some b.size) (b.push parent (Kind.ofTag tag named) span) children

def pushDumps (parent : Option Nat) (b : Builder) : List Dump → Builder
  | [] => b
  | d :: ds => pushDumps parent (pushDump parent b d) ds

end

end Builder

/-- Loads a dump; its nodes are numbered in the order in which they are written down. -/
def TreeDump.load (d : TreeDump) : Except Fault Tree :=
  (Builder.pushDump none (.empty d.source) d.root).finish

end FishNav
