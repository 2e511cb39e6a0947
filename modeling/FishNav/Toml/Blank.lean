import FishNav.Text.Reading

/-!
# Between the values of TOML

Blanks, line breaks and comments. A line ends with a line feed, which may have a carriage return
in front of it.
-/
namespace FishNav.Toml

open Text
open Reading (here)

def isBlank (c : Char) : Bool := c == ' ' || c == '\t'

/-- May stand in a comment or, unless it ends the string, in a string: no control character but the
tab. -/
def isTextChar (c : Char) : Bool := c == '\t' || (0x20 ≤ c.toNat && c.toNat != 0x7f)

def lineBreak? : (cs : List Char) → Option (Reading Unit cs)
  | '\n' :: _ => some (here ()).cons
  | '\r' :: '\n' :: _ => some (here ()).cons.cons
  | _ => none

def gap : (cs : List Char) → Reading Unit cs
  | [] => here ()
  | '\r' :: '\n' :: cs => (gap cs).cons.cons
  | c :: cs => if isBlank c || c == '\n' then (gap cs).cons else here ()

def filler : (cs : List Char) → Reading Unit cs
  | [] => here ()
  | '\r' :: '\n' :: cs => (filler cs).cons.cons
  | c :: cs =>
    if isBlank c || c == '\n' then (filler cs).cons
    else if c = '#' then
      let ⟨_, rest, h⟩ := skip isTextChar cs
      ((filler rest).behind h).cons
    else here ()
termination_by cs => cs.length

/-- Reads what may follow on the line of a value or a header: blanks, a comment, and the line break
or the end of the text. -/
def lineEnd (cs : List Char) : Option (Reading Unit cs) :=
  let ⟨_, rest, h⟩ := skip isBlank cs
  match rest with
  | '#' :: rest =>
    let ⟨_, rest', h'⟩ := skip isTextChar rest
    (breakOrEnd rest').map fun r => (r.behind h').cons.behind h
  | rest => (breakOrEnd rest).map fun r => r.behind h
where
  /-- Reads a line break or the end of the text. -/
  breakOrEnd : (cs : List Char) → Option (Reading Unit cs)
    | [] => some (here ())
    | c :: cs => lineBreak? (c :: cs)

end FishNav.Toml
