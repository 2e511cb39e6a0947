import FishNav.Symbol.Basic
import FishNav.Tree.Load

/-!
# Symbols in JSON

A symbol is an object with the members `name`, `kind`, `range`, `selection_range`, `detail` and
`children`; no detail and no children are left out. A range has the members `start` and `end`, and
a position has `line` and `character`.

On the way back, objects may also be arrays of their members' values in this order, `children` may
be missing in either form, and members with other keys are skipped. Of several members with one
key the last one counts.
-/
namespace FishNav

open Json

def Position.toJson (p : Position) : Json :=
  .obj [("line", .nat p.line), ("character", .nat p.column)]

def Range.toJson (r : Range) : Json :=
  .obj [("start", r.start.toJson), ("end", r.stop.toJson)]

namespace Symbol

mutual

def toJson : Symbol → Json
  | ⟨name, kind, range, selection, detail, children⟩ =>
    .obj <|
      [("name", .str name), ("kind", .str kind.name), ("range", range.toJson),
        ("selection_range", selection.toJson)] ++
      (match detail with
        | none => []
        | some text => [("detail", .str text)]) ++
      (match children with
        | [] => []
        | s :: ss => [("children", .arr (toJson s :: toJsonAll ss))])

def toJsonAll : List Symbol → List Json
  | [] => []
  | s :: ss => toJson s :: toJsonAll ss

end

end Symbol

def Position.ofJson? : Json → Option Position
  | .obj members => do
    let line ← (Json.obj members).get? "line"
    let column ← (Json.obj members).get? "character"
    return ⟨← line.natBelow? Position.wordSize, ← column.natBelow? Position.wordSize⟩
  | .arr [line, column] => do
    return ⟨← line.natBelow? Position.wordSize, ← column.natBelow? Position.wordSize⟩
  | _ => none

def Range.ofJson? : Json → Option Range
  | .obj members => do
    let start ← (Json.obj members).get? "start"
    let stop ← (Json.obj members).get? "end"
    return ⟨← Position.ofJson? start, ← Position.ofJson? stop⟩
  | .arr [start, stop] => do return ⟨← Position.ofJson? start, ← Position.ofJson? stop⟩
  | _ => none

def SymbolKind.ofName? : String → Option SymbolKind
  | "function" => some .function
  | "variable" => some .var
  | _ => none

/-- The kind that a JSON value names: by a string, or by the only key of an object, whose value is
null. -/
def SymbolKind.ofJson? : Json → Option SymbolKind
  | .str name => ofName? name
  | .obj [(name, .null)] => ofName? name
  | _ => none

namespace Symbol

/-- The detail that a JSON value holds; null is no detail. -/
def detailOfJson? : Json → Option (Option String)
  | .null => some none
  | .str text => some (some text)
  | _ => none

mutual

def ofJson? : Json → Option Symbol
  | .obj members => do
    let object := Json.obj members
    return {
      name := ← (← object.get? "name").string?
      kind := ← SymbolKind.ofJson? (← object.get? "kind")
      range := ← Range.ofJson? (← object.get? "range")
      selection := ← Range.ofJson? (← object.get? "selection_range")
      detail := ← detailOfJson? ((object.get? "detail").getD .null)
      children := ← (childrenOfMembers? members).getD (some []) }
  | .arr (name :: kind :: range :: selection :: detail :: more) => do
    return {
      name := ← name.string?
      kind := ← SymbolKind.ofJson? kind
      range := ← Range.ofJson? range
      selection := ← Range.ofJson? selection
      detail := ← detailOfJson? detail
      children := ← childrenOfTail? more }
  | _ => none

def ofItems? : List Json → Option (List Symbol)
  | [] => some []
  | v :: vs => do return (← ofJson? v) :: (← ofItems? vs)

def ofArray? : Json → Option (List Symbol)
  | .arr items => ofItems? items
  | _ => none

/-- The symbols in the last member `children`; `none` if there is no such member. -/
def childrenOfMembers? : List (String × Json) → Option (Option (List Symbol))
  | [] => none
  | (key, v) :: more =>
    match childrenOfMembers? more with
    | some later => some later
    | none => if key == "children" then some (ofArray? v) else none

/-- The symbols in what follows the detail in an array: nothing, or one array. -/
def childrenOfTail? : List Json → Option (List Symbol)
  | [] => some []
  | [v] => ofArray? v
  | _ => none

end

end Symbol

end FishNav
