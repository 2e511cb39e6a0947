import FishNav.Toml.Date
import FishNav.Toml.Key
import FishNav.Toml.Number
import FishNav.Toml.Table

/-!
# Reading TOML

Documents of tables, dotted keys and values, line by line. The values are those of JSON. Arrays and
inline tables that stand too deep in one another are refused. What is wrong with a text that is
refused is not told.
-/
namespace FishNav.Toml

open Text
open Reading (here)

/-- May stand in a truth value, a number, a date or a time. -/
def isWordChar (c : Char) : Bool :=
  c.isAlphanum || c == '_' || c == '+' || c == '-' || c == '.' || c == ':'

def ofWord? (cs : List Char) : Option Json :=
  if cs == ['t', 'r', 'u', 'e'] then some (.bool true)
  else if cs == ['f', 'a', 'l', 's', 'e'] then some (.bool false)
  else if isMoment cs then some (moment cs)
  else ofNumeral? cs

/-- Reads a blank and the word behind it, which starts with a digit. -/
def nextWord? : (cs : List Char) → Option (Reading (List Char) cs)
  | ' ' :: c :: cs =>
    if c.isDigit then some ((skip isWordChar cs).map (c :: ·)).cons.cons else none
  | _ => none

/-- Reads the time behind the blank that follows a date, and the date alone if no digit follows. -/
def dated (date : List Char) (cs : List Char) : Option (Reading Json cs) :=
  match nextWord? cs with
  | some time =>
    if isZonedTime time.value then some (time.map fun time => moment (date ++ ' ' :: time)) else none
  | none => some (here (moment date))

/-- Reads a value that is one word, or a date and a time, behind its first character `c`. -/
def word (c : Char) (cs : List Char) : Option (Reading Json cs) :=
  let ⟨more, rest, h⟩ := skip isWordChar cs
  if isDate (c :: more) then (dated (c :: more) rest).map (·.behind h)
  else (ofWord? (c :: more)).map fun v => here v |>.behind h

mutual

/-- Reads a value in which less than `room` arrays and inline tables stand one in another. -/
def value (room : Nat) : (cs : List Char) → Option (Reading Json cs)
  | [] => none
  | c :: cs =>
    if c = '"' || c = '\'' then do
      let s ← string c cs
      return (s.map fun s => Json.str (String.ofList s)).cons
    else if (c = '[' || c = '\x7b') && room ≤ 1 then none
    else if c = '[' then do
      let found ← items (room - 1) cs
      return (found.map Json.arr).cons
    else if c = '\x7b' then do
      let found ← inlineTable (room - 1) cs
      return (found.map Table.toJson).cons
    else (word c cs).map (·.cons)
termination_by cs => 2 * cs.length

/-- Reads the items of an array behind its opening bracket or a comma, up to and with the closing
bracket. Comments and line breaks may stand between the items, and a comma behind the last. -/
def items (room : Nat) (cs : List Char) : Option (Reading (List Json) cs) := do
  let ⟨_, rest, h⟩ := filler cs
  match char? ']' rest with
  | some ⟨_, _, rest₁, h₁⟩ => return here [] |>.past h₁ |>.behind h
  | none =>
    let ⟨first, rest₁, h₁⟩ ← value room rest
    let ⟨_, rest₂, h₂⟩ := filler rest₁
    match char? ',' rest₂ with
    | some ⟨_, _, rest₃, h₃⟩ =>
      let more ← items room rest₃
      return more.map (first :: ·) |>.past h₃ |>.behind h₂ |>.behind h₁ |>.behind h
    | none =>
      let ⟨_, _, rest₃, h₃⟩ ← char? ']' rest₂
      return here [first] |>.past h₃ |>.behind h₂ |>.behind h₁ |>.behind h
termination_by 2 * cs.length + 1

/-- Reads a table behind its opening brace, up to and with the closing one, on one line. -/
def inlineTable (room : Nat) (cs : List Char) : Option (Reading Table cs) := do
  let ⟨_, c, tail, h⟩ ← next? isBlank cs
  if c = '\x7d' then return here .empty |>.past h
  else inlineMembers room .empty cs
termination_by 2 * cs.length + 1

/-- Reads the members of an inline table from one of them on, and adds them to `t`. -/
def inlineMembers (room : Nat) (t : Table) (cs : List Char) : Option (Reading Table cs) := do
  let ⟨path, rest, h⟩ ← key cs
  let ⟨_, _, rest₁, h₁⟩ ← char? '=' rest
  let ⟨_, rest₂, h₂⟩ := skip isBlank rest₁
  let ⟨v, rest₃, h₃⟩ ← value room rest₂
  let t ← t.addValue path v
  let ⟨_, c, rest₄, h₄⟩ ← next? isBlank rest₃
  if c = ',' then
    let all ← inlineMembers room t rest₄
    return all.past h₄ |>.behind h₃ |>.behind h₂ |>.past h₁ |>.behind h
  else if c = '\x7d' then
    return here t |>.past h₄ |>.behind h₃ |>.behind h₂ |>.past h₁ |>.behind h
  else none
termination_by 2 * cs.length

end

/-- A document as far as it was read: all tables, and the path of the one that is open. -/
structure Document where
  table : Table
  current : List String

namespace Document

def empty : Document := ⟨.empty, []⟩

def openTable (d : Document) (path : List String) : Option Document :=
  (d.table.openTable path).map fun t => ⟨t, path⟩

def openRow (d : Document) (path : List String) : Option Document :=
  (d.table.openRow path).map fun t => ⟨t, path⟩

def addValue (d : Document) (path : List String) (v : Json) : Option Document :=
  (d.table.changeAt false (·.addValue path v) d.current).map fun t => { d with table := t }

end Document

def rowHeader (d : Document) (cs : List Char) : Option (Reading Document cs) := do
  let ⟨path, rest, h⟩ ← key cs
  let ⟨_, _, rest₁, h₁⟩ ← char? ']' rest
  let ⟨_, _, rest₂, h₂⟩ ← char? ']' rest₁
  let ⟨_, _, h₃⟩ ← lineEnd rest₂
  return here (← d.openRow path) |>.behind h₃ |>.past h₂ |>.past h₁ |>.behind h

def header (d : Document) (cs : List Char) : Option (Reading Document cs) := do
  let ⟨path, rest, h⟩ ← key cs
  let ⟨_, _, rest₁, h₁⟩ ← char? ']' rest
  let ⟨_, _, h₂⟩ ← lineEnd rest₁
  return here (← d.openTable path) |>.behind h₂ |>.past h₁ |>.behind h

def assignment (d : Document) (cs : List Char) : Option (Reading Document cs) := do
  let ⟨path, rest, h⟩ ← key cs
  let ⟨_, _, rest₁, h₁⟩ ← char? '=' rest
  let ⟨_, rest₂, h₂⟩ := skip isBlank rest₁
  let ⟨v, rest₃, h₃⟩ ← value depthLimit rest₂
  let ⟨_, _, h₄⟩ ← lineEnd rest₃
  return here (← d.addValue path v)
    |>.behind h₄ |>.behind h₃ |>.behind h₂ |>.past h₁ |>.behind h

/-- Reads a header or a key with its value, and the rest of the line. -/
def line (d : Document) (cs : List Char) : Option (Document × List Char) :=
  match cs with
  | '[' :: '[' :: cs => (rowHeader d cs).map fun r => (r.value, r.rest)
  | '[' :: cs => (header d cs).map fun r => (r.value, r.rest)
  | cs => (assignment d cs).map fun r => (r.value, r.rest)

/-- Reads the lines of a document. Each line takes at least one character, so as many steps as
there are characters are enough. -/
def lines : Nat → Document → List Char → Option Document
  | steps, d, cs =>
    match (filler cs).rest, steps with
    | [], _ => some d
    | _ :: _, 0 => none
    | c :: rest, steps + 1 => (line d (c :: rest)).bind fun (d, rest) => lines steps d rest

/-- The value of a document. A byte order mark at the start is skipped. -/
def parse? (text : String) : Option Json :=
  let cs := match text.toList with
    | c :: cs => if c.toNat = 0xfeff then cs else c :: cs
    | [] => []
  (lines cs.length .empty cs).map (·.table.toJson)

end FishNav.Toml
