import FishNav.Text.Blank
import FishNav.Text.Lines
import FishNav.Text.Split

/-!
# Locations on the command line

A place in a file is written `file:line` or `file:line:column`, counted from one. The file ends at
the first colon that is followed by a digit or a minus sign; a letter and a colon at the very start
are a drive and belong to the file.
-/
namespace FishNav

structure FilePosition where
  file : String
  line : Nat
  column : Nat
  deriving DecidableEq, Repr

inductive LocationError where
  | empty
  | format
  | negativeLine
  | line (text : String)
  | column (text : String)
  | lineZero
  | columnZero
  | pastLastLine (line count : Nat)
  | pastLineEnd (column length line : Nat)
  deriving DecidableEq, Repr

namespace LocationError

def message : LocationError → String
  | empty => "Location cannot be empty"
  | format =>
    "Invalid location format. Expected: file:line[:column]\nExample: tree.json:10:5"
  | negativeLine =>
    "Invalid line number: negative values not allowed. " ++
      "Line numbers are 1-indexed positive integers.\nExample: tree.json:10:5"
  | line text =>
    "Invalid line number '" ++ text ++ "': must be a positive integer (1-indexed)"
  | column text =>
    "Invalid column number '" ++ text ++ "': must be a positive integer (1-indexed)"
  | lineZero => "Line number must be >= 1 (got 0). Line numbers are 1-indexed."
  | columnZero => "Column number must be >= 1 (got 0). Column numbers are 1-indexed."
  | pastLastLine n count =>
    "Line " ++ toString n ++ " exceeds file length (" ++ toString count ++ " lines)"
  | pastLineEnd k length n =>
    "Column " ++ toString k ++ " exceeds line length (" ++ toString length ++
      " chars) at line " ++ toString n

end LocationError

namespace FilePosition

/-! ### Reading -/

/-- Cuts at the first colon that is followed by a digit or a minus sign. -/
def cut? : List Char → Option (List Char × List Char)
  | [] => none
  | ':' :: c :: cs =>
    if c.isDigit || c == '-' then some ([], c :: cs)
    else (cut? (c :: cs)).map fun (file, rest) => (':' :: file, rest)
  | c :: cs => (cut? cs).map fun (file, rest) => (c :: file, rest)

def cutFile? (cs : List Char) : Option (List Char × List Char) :=
  match cs with
  | drive :: ':' :: c :: rest =>
    if drive.isAlpha then
      (cut? (c :: rest)).map fun (file, rest) => (drive :: ':' :: file, rest)
    else cut? cs
  | _ => cut? cs

/-- A number written with digits, and a plus sign if one likes, that fits into 32 bits. -/
def number? (cs : List Char) : Option Nat :=
  let digits := match cs with
    | '+' :: digits => digits
    | digits => digits
  if digits.isEmpty || !digits.all Char.isDigit then none
  else
    let n := digits.foldl (fun n c => n * 10 + (c.toNat - '0'.toNat)) 0
    if n < Position.wordSize then some n else none

/-- Line and column of a position; a column that is left out is the first. -/
def numbers (cs : List Char) : Except LocationError (Nat × Nat) := do
  let lineText := cs.takeWhile (· != ':')
  let line ← match number? lineText with
    | some n => .ok n
    | none => .error (.line (String.ofList lineText))
  let column ← match cs.dropWhile (· != ':') with
    | [] => .ok 1
    | _ :: columnText =>
      match number? columnText with
      | some n => .ok n
      | none => .error (.column (String.ofList columnText))
  if line = 0 then .error .lineZero
  else if column = 0 then .error .columnZero
  else .ok (line, column)

/-- The location that a text writes. Blanks around it do not count. -/
def parse (text : String) : Except LocationError FilePosition :=
  let cs := Text.trim text.toList
  if cs.isEmpty then .error .empty
  else
    match cutFile? cs with
    | none => .error .format
    | some (_, '-' :: _) => .error .negativeLine
    | some (file, rest) =>
      (numbers rest).map fun (line, column) => ⟨String.ofList file, line, column⟩

/-! ### Use -/

def render (l : FilePosition) : String :=
  l.file ++ ":" ++ toString l.line ++ ":" ++ toString l.column

def position (l : FilePosition) : Position := .ofDisplay l.line l.column

/-- Checks that the position is in a text or just behind the end of one of its lines. -/
def check (l : FilePosition) (content : List Char) : Except LocationError Unit :=
  let lines := Text.displayLines content
  let count := max lines.length 1
  if count < l.line then .error (.pastLastLine l.line count)
  else
    match lines[l.line - 1]? with
    | none => .ok ()
    | some line =>
      let length := Text.byteLength line
      if length + 1 < l.column then .error (.pastLineEnd l.column length l.line) else .ok ()

end FilePosition

end FishNav
