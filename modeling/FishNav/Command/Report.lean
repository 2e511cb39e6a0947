import FishNav.File.Uri
import FishNav.Json.Printer
import FishNav.Symbol.Basic

/-!
# What commands print

Places and symbols for people: lines and columns are counted from one, and paths are seen from the
working directory where possible. Members are in alphabetical order. There is nothing to print
(`none`) if a coordinate on the way is too large to be counted from one.
-/
namespace FishNav.Report

/-- A range of a file, with its text if that is known. -/
def range? (file : String) (r : Range) (text? : Option String) : Option Json := do
  let (line, column) ← r.start.display?
  let (endLine, endColumn) ← r.stop.display?
  return .obj <|
    [("column", .nat column), ("end_column", .nat endColumn), ("end_line", .nat endLine),
      ("file", .str file), ("line", .nat line)] ++
    (text?.map fun text => ("text", .str text)).toList

/-- A location, its file seen from `root`. -/
def location? (root : String) (l : Location) (text? : Option String) : Option Json :=
  range? (Path.relativeTo root (Uri.toPath l.uri)) l.range text?

mutual

/-- A symbol of a file with the symbols below it. -/
def symbol? (file : String) : Symbol → Option Json
  | ⟨name, kind, r, selection, detail, children⟩ => do
    let location ← range? file r none
    let selected ← range? file selection none
    let below ← symbols? file children
    return .obj <|
      (if below.isEmpty then [] else [("children", .arr below)]) ++
      (detail.map fun text => ("detail", .str text)).toList ++
      [("kind", .str kind.name), ("location", location), ("name", .str name),
        ("selection", selected)]

def symbols? (file : String) : List Symbol → Option (List Json)
  | [] => some []
  | s :: ss => do
    let first ← symbol? file s
    let more ← symbols? file ss
    return first :: more

end

def symbolList? (file : String) (ss : List Symbol) : Option Json := do
  let shown ← symbols? file ss
  return .obj [("count", .nat shown.length), ("symbols", .arr shown)]

def success (data : Json) : Json := .obj [("data", data), ("success", .bool true)]

def failure (message : String) : Json := .obj [("error", .str message), ("success", .bool false)]

def print (isPretty : Bool) (v : Json) : String :=
  (if isPretty then v.pretty else v.compact) ++ "\n"

end FishNav.Report
