import FishNav.Kind
import FishNav.Text.Mark
import FishNav.Tree.Dump

/-!
# Concrete syntax

A script as it was read, nothing left out: nodes, and between and inside them the plain text that
belongs to no node of its own. The characters of a part, in order, are the characters it was read
from, so the place of every node follows from the lengths of what stands before it.
-/
namespace FishNav

inductive Cst where
  /-- Plain text: separators, the letters of a word, what stands between the parts of a string. -/
  | text (chars : List Char)
  | node (kind : Kind) (parts : List Cst)
  deriving Repr

namespace Cst

def leaf (kind : Kind) (chars : List Char) : Cst := .node kind [.text chars]

/-- A keyword or a piece of punctuation. -/
def token (chars : List Char) : Cst := leaf .anonymous chars

mutual

def chars : Cst → List Char
  | .text cs => cs
  | .node _ parts => charsOfAll parts

def charsOfAll : List Cst → List Char
  | [] => []
  | p :: ps => chars p ++ charsOfAll ps

end

mutual

/-- The nodes of a part that starts at `m`, and the mark behind it. A node covers all of its
parts; plain text only moves the mark. -/
def place (m : Mark) : Cst → List Dump × Mark
  | .text cs => ([], m.advance cs)
  | .node kind parts =>
    let (children, stop) := placeAll m parts
    ([{ tag := kind.tag?.getD (String.ofList (charsOfAll parts))
        named := kind.isNamed
        span := ⟨m, stop⟩
        children := children }], stop)

/-- The nodes of a list of parts of which the first starts at `m`, and the mark behind the last. -/
def placeAll (m : Mark) : List Cst → List Dump × Mark
  | [] => ([], m)
  | p :: ps =>
    let (first, next) := place m p
    let (more, stop) := placeAll next ps
    (first ++ more, stop)

end

end Cst

end FishNav
