import FishNav.Json.Reader
import FishNav.Tree.Builder

/-!
# Trees from JSON

A dump in JSON is an object with the members `source` and `root`; a node has the members `kind`,
`named`, `start_byte`, `end_byte`, `start`, `end` and `children`, a point has `row` and `column`.
`named` is true and `children` is empty when left out. Any of these objects may also be written as
an array of its members' values in this order. Members with other keys are skipped, a known key
must not come twice, points are 32-bit and offsets 64-bit words, and the arrays and objects of a
dump nest at most 127 deep. Trees that come from a parser in the same process are left out.
-/
namespace FishNav

namespace Json

/-- The value of a member: `none` if the key comes twice, `some none` if it is not there. -/
def single? (key : String) (members : List (String × Json)) : Option (Option Json) :=
  match members.filter (·.1 == key) with
  | [] => some none
  | [(_, v)] => some (some v)
  | _ => none

/-- The value of a member that must be there exactly once. -/
def required? (key : String) (members : List (String × Json)) : Option Json :=
  (single? key members).join

def natBelow? (bound : Nat) : Json → Option Nat
  | nat n => if n < bound then some n else none
  | _ => none

def string? : Json → Option String
  | str s => some s
  | _ => none

def bool? : Json → Option Bool
  | bool b => some b
  | _ => none

def items? : Json → Option (List Json)
  | arr vs => some vs
  | _ => none

end Json

namespace TreeDump

open Json

/-- How deep the arrays and objects of a dump may nest. -/
def depthLimit : Nat := 127

def byteLimit : Nat := 0x10000000000000000

def point? : Json → Option Position
  | .obj members => do
    let row ← required? "row" members
    let column ← required? "column" members
    return ⟨← row.natBelow? Position.wordSize, ← column.natBelow? Position.wordSize⟩
  | .arr [row, column] => do
    return ⟨← row.natBelow? Position.wordSize, ← column.natBelow? Position.wordSize⟩
  | _ => none

def span? (startByte stopByte start stop : Json) : Option Span := do
  return ⟨⟨← startByte.natBelow? byteLimit, ← point? start⟩,
    ⟨← stopByte.natBelow? byteLimit, ← point? stop⟩⟩

/-- A node that may nest `depth` deep, counted in arrays and objects. A node and its points nest
two deep, so less room holds no node. -/
def node? : (depth : Nat) → Json → Option Dump
  | depth + 2, .obj members => do
    let kind ← required? "kind" members
    let named ← single? "named" members
    let startByte ← required? "start_byte" members
    let stopByte ← required? "end_byte" members
    let start ← required? "start" members
    let stop ← required? "end" members
    let children ← single? "children" members
    return {
      tag := ← kind.string?
      named := ← (named.getD (.bool true)).bool?
      span := ← span? startByte stopByte start stop
      children := ← (← (children.getD (.arr [])).items?).mapM (node? depth) }
  | depth + 2, .arr (kind :: named :: startByte :: stopByte :: start :: stop :: more) => do
    let children ← match more with
      | [] => some []
      | [children] => children.items?
      | _ => none
    return {
      tag := ← kind.string?
      named := ← named.bool?
      span := ← span? startByte stopByte start stop
      children := ← children.mapM (node? depth) }
  | _, _ => none

def ofJson? : Json → Option TreeDump
  | .obj members => do
    let source ← required? "source" members
    let root ← required? "root" members
    return ⟨← source.string?, ← node? (depthLimit - 1) root⟩
  | .arr [source, root] => do
    return ⟨← source.string?, ← node? (depthLimit - 1) root⟩
  | _ => none

end TreeDump

inductive LoadError where
  /-- The text is no JSON, or its value is no dump. -/
  | notADump
  | fault (fault : Fault)
  deriving DecidableEq, Repr

def Tree.ofJson (text : String) : Except LoadError Tree :=
  match (Json.parse? text).bind TreeDump.ofJson? with
  | none => .error .notADump
  | some dump => dump.load.mapError .fault

end FishNav
