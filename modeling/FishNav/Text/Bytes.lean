/-!
# Byte offsets into a text

Texts are lists of characters, offsets into them count the bytes of their UTF-8 form.
An offset is a boundary of the text when it falls between two characters or at an end.
Cutting at offsets succeeds exactly on boundaries, so a cut never splits a character.
-/
namespace FishNav.Text

def byteLength : List Char → Nat
  | [] => 0
  | c :: cs => c.utf8Size + byteLength cs

/-- What follows the first `n` bytes of `cs`; `none` if offset `n` is no boundary of `cs`. -/
def dropBytes? : Nat → List Char → Option (List Char)
  | 0, cs => some cs
  | _ + 1, [] => none
  | n + 1, c :: cs =>
    if c.utf8Size ≤ n + 1 then dropBytes? (n + 1 - c.utf8Size) cs else none

/-- The first `n` bytes of `cs`; `none` if offset `n` is no boundary of `cs`. -/
def takeBytes? : Nat → List Char → Option (List Char)
  | 0, _ => some []
  | _ + 1, [] => none
  | n + 1, c :: cs =>
    if c.utf8Size ≤ n + 1 then (takeBytes? (n + 1 - c.utf8Size) cs).map (c :: ·) else none

/-- Whether offset `n` lies between two characters of `cs` or at one of its ends. -/
def isBoundary (cs : List Char) (n : Nat) : Bool := (dropBytes? n cs).isSome

/-- The characters from offset `a` up to offset `b`. -/
def slice? (cs : List Char) (a b : Nat) : Option (List Char) :=
  if a ≤ b then (dropBytes? a cs).bind (takeBytes? (b - a)) else none

end FishNav.Text
