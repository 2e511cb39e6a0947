import FishNav.Text.Split

/-!
# File paths

Paths are texts; slashes divide them into segments. Empty segments and the segment `.` say
nothing, except that a path may start with a slash or with a `.` of its own. What is left are the
components of the path. Operations that shorten a path keep the spelling of what is left of it.
-/
namespace FishNav.Path

def isAbsolute (p : String) : Bool := p.toList.head? == some '/'

/-- `child` seen from `base`. An absolute path is the same from everywhere. -/
def join (base child : String) : String :=
  if isAbsolute child || base.isEmpty then child
  else if base.toList.getLast? == some '/' then base ++ child
  else base ++ "/" ++ child

/-- A path taken apart: a slash or a dot at its start, and the segments behind it. -/
structure Parts where
  lead : List Char
  segments : List (List Char)
  deriving DecidableEq, Repr

namespace Parts

def ofPath (p : String) : Parts :=
  match p.toList with
  | '/' :: rest => ⟨['/'], Text.split '/' rest⟩
  | ['.'] => ⟨['.'], []⟩
  | '.' :: '/' :: rest => ⟨['.'], Text.split '/' ('/' :: rest)⟩
  | cs => ⟨[], Text.split '/' cs⟩

def toPath (p : Parts) : String := String.ofList (p.lead ++ Text.join '/' p.segments)

/-- Segments that say nothing. -/
def isIdle (segment : List Char) : Bool := segment == [] || segment == ['.']

/-- Without idle segments at the end. -/
def trimEnd (segments : List (List Char)) : List (List Char) :=
  (segments.reverse.dropWhile isIdle).reverse

/-- The components of a path: what it starts with, if anything, and all but the idle segments. -/
def components (p : Parts) : List (List Char) :=
  (if p.lead = [] then [] else [p.lead]) ++ p.segments.filter (!isIdle ·)

/-- Without the first `n` segments that are not idle, and without idle ones around the rest. -/
def dropComponents : Nat → List (List Char) → List (List Char)
  | 0, segments => trimEnd (segments.dropWhile isIdle)
  | _ + 1, [] => []
  | n + 1, segment :: segments =>
    if isIdle segment then dropComponents (n + 1) segments else dropComponents n segments

end Parts

open Parts

/-- The path without its last component; `none` for the root and for the empty path. -/
def parent? (p : String) : Option String :=
  let parts := Parts.ofPath p
  match trimEnd parts.segments with
  | [] => if parts.lead = ['.'] then some "" else none
  | segments => some (Parts.toPath { parts with segments := trimEnd segments.dropLast })

/-- The path as seen from `base`; `none` if its components do not start with those of `base`. -/
def relativeTo? (base p : String) : Option String :=
  let from' := (Parts.ofPath base).components
  let parts := Parts.ofPath p
  if parts.components.take from'.length = from' then
    match from'.length with
    | 0 => some (Parts.toPath { parts with segments := trimEnd parts.segments })
    | n + 1 =>
      let dropped := if parts.lead = [] then n + 1 else n
      some (Parts.toPath ⟨[], dropComponents dropped parts.segments⟩)
  else none

/-- The path as seen from `base`, or as it is if it is not below `base`. -/
def relativeTo (base p : String) : String := (relativeTo? base p).getD p

end FishNav.Path
