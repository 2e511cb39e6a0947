/-!
# Positions and ranges

A position is a line and a column, both counted from zero; columns count bytes.
Positions are ordered as they are met in a text. A range runs from one position to
another; most questions about ranges treat both ends as belonging to the range.

Coordinates are 32-bit words. They are kept as natural numbers; the only arithmetic
on them is the step to one-based coordinates for people, which the greatest word does not have.
-/
namespace FishNav

structure Position where
  line : Nat
  column : Nat
  deriving DecidableEq, Repr, Inhabited

namespace Position

instance : LT Position :=
  ⟨fun p q => p.line < q.line ∨ (p.line = q.line ∧ p.column < q.column)⟩

instance : LE Position :=
  ⟨fun p q => p.line < q.line ∨ (p.line = q.line ∧ p.column ≤ q.column)⟩

theorem lt_def {p q : Position} :
    p < q ↔ p.line < q.line ∨ (p.line = q.line ∧ p.column < q.column) := Iff.rfl

theorem le_def {p q : Position} :
    p ≤ q ↔ p.line < q.line ∨ (p.line = q.line ∧ p.column ≤ q.column) := Iff.rfl

instance (p q : Position) : Decidable (p < q) := decidable_of_iff' _ lt_def

instance (p q : Position) : Decidable (p ≤ q) := decidable_of_iff' _ le_def

def origin : Position := ⟨0, 0⟩

/-- One past the greatest coordinate. -/
def wordSize : Nat := 0x100000000

def next? (coordinate : Nat) : Option Nat :=
  if coordinate + 1 < wordSize then some (coordinate + 1) else none

/-- Line and column counted from one, as people read them. A sum that is no word is an overflow,
and the program stops at it. -/
def display? (p : Position) : Option (Nat × Nat) := do
  return (← next? p.line, ← next? p.column)

/-- The position that a line and a column counted from one name; zero counts as one. -/
def ofDisplay (line column : Nat) : Position := ⟨line - 1, column - 1⟩

end Position

structure Range where
  start : Position
  stop : Position
  deriving DecidableEq, Repr, Inhabited

namespace Range

def point (p : Position) : Range := ⟨p, p⟩

/-- The range from line `a`, column `b` to line `c`, column `d`. -/
def ofCoordinates (a b c d : Nat) : Range := ⟨⟨a, b⟩, ⟨c, d⟩⟩

/-- The written form `line:column-line:column`. -/
def render (r : Range) : String :=
  toString r.start.line ++ ":" ++ toString r.start.column ++ "-" ++
    toString r.stop.line ++ ":" ++ toString r.stop.column

/-- Whether `inner` lies inside `outer`. Both ends of `inner` must be on a line of `outer`;
columns count only where `inner` starts on the first line or stops on the last line of `outer`. -/
def contains (outer inner : Range) : Bool :=
  outer.start.line ≤ inner.start.line && outer.start.line ≤ inner.stop.line &&
  inner.start.line ≤ outer.stop.line && inner.stop.line ≤ outer.stop.line &&
  !(inner.start.line == outer.start.line && inner.start.column < outer.start.column) &&
  !(inner.stop.line == outer.stop.line && outer.stop.column < inner.stop.column)

/-- Whether `before` starts strictly earlier than `after`. -/
def precedes (before after : Range) : Bool := before.start < after.start

/-- Whether `p` is in `r`, both ends included. -/
def covers (r : Range) (p : Position) : Bool := r.start ≤ p && p ≤ r.stop

end Range

/-- A range of the document that `uri` names. -/
structure Location where
  uri : String
  range : Range
  deriving DecidableEq, Repr

end FishNav
