import FishNav.Text.Position

/-!
# Marks and spans

A mark is a place in a text, given both as an offset in bytes and as a position. Moving a mark
over characters keeps the two in step. A span runs from one mark to another.
-/
namespace FishNav

structure Mark where
  byte : Nat
  position : Position
  deriving DecidableEq, Repr, Inhabited

namespace Mark

def origin : Mark := ⟨0, .origin⟩

def step (m : Mark) (c : Char) : Mark :=
  ⟨m.byte + c.utf8Size,
    if c = '\n' then ⟨m.position.line + 1, 0⟩
    else ⟨m.position.line, m.position.column + c.utf8Size⟩⟩

def advance (m : Mark) (cs : List Char) : Mark := cs.foldl step m

end Mark

structure Span where
  start : Mark
  stop : Mark
  deriving DecidableEq, Repr, Inhabited

namespace Span

def range (s : Span) : Range := ⟨s.start.position, s.stop.position⟩

end Span

end FishNav
