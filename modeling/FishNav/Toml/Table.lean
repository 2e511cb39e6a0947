import FishNav.Json.Value

/-!
# Building TOML tables

A document is a table that grows line by line. A table can be opened by a header once; a header
opens the tables on the way to it implicitly, and those may still get a header of their own. Keys
with dots open tables too, but those cannot get a header, and such keys cannot add to a table that
has one. A header in double brackets adds a row to an array of tables, and paths go through the
last row.
-/
namespace FishNav.Toml

/-- What a key stands for. -/
inductive Entry where
  | value (v : Json)
  /-- A table: whether it was opened on the way to another one, and whether by a dotted key. -/
  | table (implicit dotted : Bool) (members : List (String × Entry))
  | rows (tables : List (List (String × Entry)))

structure Table where
  implicit : Bool
  dotted : Bool
  members : List (String × Entry)

namespace Table

/-- A table with a header of its own. -/
def empty : Table := ⟨false, false, []⟩

def get? (t : Table) (key : String) : Option Entry := (t.members.find? (·.1 == key)).map (·.2)

def set (t : Table) (key : String) (e : Entry) : Table :=
  { t with members := t.members.filter (·.1 != key) ++ [(key, e)] }

def toEntry (t : Table) : Entry := .table t.implicit t.dotted t.members

/-- Changes the table at the end of a path. Tables on the way that are not there are opened; a
dotted path cannot pass a table that has a header. -/
def changeAt (t : Table) (dotted : Bool) (change : Table → Option Table) :
    List String → Option Table
  | [] => change t
  | key :: path =>
    match t.get? key with
    | none => do
      let inner ← changeAt ⟨true, dotted, []⟩ dotted change path
      return t.set key inner.toEntry
    | some (.value _) => none
    | some (.rows tables) => do
      let inner ← changeAt ⟨false, false, ← tables.getLast?⟩ dotted change path
      return t.set key (.rows (tables.dropLast ++ [inner.members]))
    | some (.table implicit isDotted members) =>
      if dotted && !implicit then none
      else do
        let inner ← changeAt ⟨implicit, isDotted, members⟩ dotted change path
        return t.set key inner.toEntry

def openTable (path : List String) (t : Table) : Option Table := do
  let name ← path.getLast?
  t.changeAt false (opened name) path.dropLast
where
  /-- The table with one more table in it that has a header. -/
  opened (name : String) (t : Table) : Option Table :=
    match t.get? name with
    | none => some (t.set name empty.toEntry)
    | some (.table true false members) => some (t.set name (.table false false members))
    | _ => none

/-- Adds a row to the array of tables of a header in double brackets. -/
def openRow (path : List String) (t : Table) : Option Table := do
  let name ← path.getLast?
  t.changeAt false (extended name) path.dropLast
where
  /-- The table with one more row in an array of tables in it. -/
  extended (name : String) (t : Table) : Option Table :=
    match t.get? name with
    | none => some (t.set name (.rows [[]]))
    | some (.rows tables) => some (t.set name (.rows (tables ++ [[]])))
    | _ => none

/-- Adds a value under a key that may have dots. -/
def addValue (path : List String) (v : Json) (t : Table) : Option Table := do
  let name ← path.getLast?
  t.changeAt true (extended name) path.dropLast
where
  /-- The table with one more value in it. A table that a dotted key opened takes values from
  dotted keys only, and any other table takes none from them. -/
  extended (name : String) (t : Table) : Option Table :=
    if t.dotted == path.dropLast.isEmpty then none
    else
      match t.get? name with
      | none => some (t.set name (.value v))
      | some _ => none

end Table

mutual

def Entry.toJson : Entry → Json
  | .value v => v
  | .table _ _ members => .obj (membersToJson members)
  | .rows tables => .arr (rowsToJson tables)

def membersToJson : List (String × Entry) → List (String × Json)
  | [] => []
  | (key, e) :: more => (key, e.toJson) :: membersToJson more

def rowsToJson : List (List (String × Entry)) → List Json
  | [] => []
  | row :: more => .obj (membersToJson row) :: rowsToJson more

end

def Table.toJson (t : Table) : Json := .obj (membersToJson t.members)

end FishNav.Toml
