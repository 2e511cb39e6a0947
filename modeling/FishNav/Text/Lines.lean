import FishNav.Text.Bytes
import FishNav.Text.Position

/-!
# Lines of a text

Lines are counted from zero and end at a newline, which belongs to no line. The text after
the last newline is a line too, also when it is empty.
-/
namespace FishNav.Text

/-- The text from the start of line `n` on; `none` past the last line. -/
def fromLine? : Nat → List Char → Option (List Char)
  | 0, cs => some cs
  | n + 1, cs =>
    match cs.dropWhile (· != '\n') with
    | [] => none
    | _ :: rest => fromLine? n rest

/-- Bytes of line `n`; a line past the last one has none. -/
def lineLength (n : Nat) (cs : List Char) : Nat :=
  match fromLine? n cs with
  | none => 0
  | some rest => byteLength (rest.takeWhile (· != '\n'))

/-- Offset of a position. A column past the end of its line counts as the line's end;
a line past the last one has no offset. -/
def offset? (cs : List Char) (p : Position) : Option Nat :=
  (fromLine? p.line cs).map fun rest =>
    byteLength cs - byteLength rest + min p.column (byteLength (rest.takeWhile (· != '\n')))

/-- The text between the offsets of the two ends of a range. A range whose ends are in the
wrong order has the empty text at its start. -/
def inRange? (cs : List Char) (r : Range) : Option (List Char) :=
  (offset? cs r.start).bind fun a =>
    (offset? cs r.stop).bind fun b => slice? cs a (max b a)

/-- The lines of a text as people count them: a newline at the very end opens no further line,
and a carriage return before a newline belongs to the line break. -/
def displayLines : List Char → List (List Char)
  | [] => []
  | '\r' :: '\n' :: cs => [] :: displayLines cs
  | '\n' :: cs => [] :: displayLines cs
  | c :: cs =>
    match displayLines cs with
    | [] => [[c]]
    | l :: ls => (c :: l) :: ls

end FishNav.Text
