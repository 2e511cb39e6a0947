import FishNav.Symbol.Outline

/-!
# What can be seen from where

Scoping in fish is mostly textual: the nearest earlier definition wins, what is inside a function
is seen inside it only, and functions can be called from everywhere.
-/
namespace FishNav.Scope

/-- The symbols below the functions of a level that contain `target`. -/
def inner (target : Range) (level : List Symbol) : List Symbol :=
  (level.filter fun s => s.isFunction && s.range.contains target).flatMap Symbol.children

/-- Goes up the nodes above a reference and adds a level of the outline for each, until the
program. -/
def levelsAlong (target : Range) : List Node → List Symbol → List Symbol
  | [], _ => []
  | n :: above, level =>
    if n.isProgram then []
    else level.map Symbol.leaf ++ levelsAlong target above (inner target level)

/-- The symbols that can be seen from a reference, outermost level first. -/
def visible (root reference : Node) : List Symbol :=
  levelsAlong reference.range reference.ancestors root.symbols

/-- The latest symbols so far, and for each of their names the slot of its symbol. -/
structure Recent where
  symbols : List Symbol := []
  slots : List (String × Nat) := []

/-- Puts a symbol into the slot of its name, or into a new one. -/
def Recent.add (recent : Recent) (s : Symbol) : Recent :=
  match recent.slots.lookup s.name with
  | some slot => { recent with symbols := recent.symbols.set slot s }
  | none => ⟨recent.symbols ++ [s], (s.name, recent.symbols.length) :: recent.slots⟩

/-- For each name the last of the symbols that start on a line before `range`, in the order in
which the names first come up. -/
def mostRecent (symbols : List Symbol) (range : Range) : List Symbol :=
  let recent : Recent := symbols.foldl (fun recent s =>
    if range.start.line ≤ s.range.start.line then recent else recent.add s) {}
  recent.symbols

/-- The first symbol of each name, leaving out the names in `seen`. -/
def firstOfEachName (seen : List String) : List Symbol → List Symbol
  | [] => []
  | s :: ss =>
    if seen.contains s.name then firstOfEachName seen ss
    else s :: firstOfEachName (s.name :: seen) ss

/-- What may be meant at a range: the latest definitions of the innermost function around it, or of
the top level, and behind them all functions of the document; each name once. -/
def nearby (root : Node) (range : Range) : List Symbol :=
  let outline := root.symbols
  let flat := Symbol.flatten outline
  let around := flat.reverse.find? fun s => s.isFunction && s.range.contains range
  let recent := match around with
    | some function => mostRecent (Symbol.flatten function.children) range
    | none => mostRecent outline range
  (firstOfEachName [] (recent ++ flat.filter Symbol.isFunction)).map Symbol.leaf

end FishNav.Scope
