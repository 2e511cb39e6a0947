import FishNav.Proofs.Script.Tree

/-!
# Reading scripts by offsets

The reader of scripts once more, as it works on the bytes of a text: its state is an offset, which
loops move forward byte by byte. A backslash moves it by two bytes, so it may come to lie inside a
character. Words, comments and the texts of tokens are cut out of the text at offsets, and a cut
that does not fall between two characters fails.

Nothing is known here about whether reading ends. Each call may only make calls with less `fuel`,
and a result is `none` if a cut fails or the fuel runs out.
-/
namespace FishNav.Cursor

open Text (slice? dropBytes? byteLength)
open Script (functionWord forWord inWord whileWord beginWord ifWord elseWord endWord)

/-! ### Bytes -/

def bytes (text : List Char) : List UInt8 := text.flatMap String.utf8EncodeChar

/-- Whether a byte is an ASCII character that satisfies `p`. -/
def isByte (p : Char → Bool) (b : UInt8) : Bool := b < 128 && p (Char.ofNat b.toNat)

def peek? (text : List Char) (pos : Nat) : Option UInt8 := (bytes text)[pos]?

/-- Moves over the bytes that satisfy `p`. -/
def skip (p : UInt8 → Bool) (text : List Char) (pos : Nat) : Nat :=
  pos + (((bytes text).drop pos).takeWhile p).length

/-- The length of the word at the front. A backslash takes the next byte with it, even where there
is none. -/
def scan : List UInt8 → Nat
  | [] => 0
  | [b] => if isByte Script.endsWord b then 0 else if b = '\\'.toUInt8 then 2 else 1
  | b :: b' :: bs =>
    if isByte Script.endsWord b then 0
    else if b = '\\'.toUInt8 then 2 + scan bs
    else 1 + scan (b' :: bs)

def wordEnd (text : List Char) (pos : Nat) : Nat :=
  min (pos + scan ((bytes text).drop pos)) (bytes text).length

def nextWord? (text : List Char) (pos : Nat) : Option (List Char) :=
  slice? text pos (wordEnd text pos)

/-- The offset of the first `c`. -/
def find? (c : Char) (text : List Char) : Option Nat :=
  if text.contains c then some (byteLength (text.takeWhile (· != c))) else none

/-! ### Nodes by offsets -/

inductive Raw where
  | node (kind : Kind) (start stop : Nat) (children : List Raw)

namespace Raw

def stop : Raw → Nat
  | node _ _ stop _ => stop

def leaf (kind : Kind) (start stop : Nat) : Raw := node kind start stop []

def token (start stop : Nat) : Raw := leaf .anonymous start stop

end Raw

/-- The end of the last of some nodes. -/
def lastStop (start : Nat) (nodes : List Raw) : Nat := (nodes.getLast?.map Raw.stop).getD start

/-! ### Readers without recursion -/

/-- Reads `key` behind blanks; if another word stands there, leaves an empty token. -/
def keyword (text key : List Char) (pos : Nat) : Option (Raw × Nat) := do
  let start := skip (isByte Script.isBlank) text pos
  let word ← nextWord? text start
  let stop := if word = key then start + byteLength key else start
  return (.token start stop, stop)

def comment (text : List Char) (pos : Nat) : Option (Raw × Nat) := do
  let rest ← dropBytes? pos text
  let stop := ((find? '\n' rest).map (pos + ·)).getD (bytes text).length
  return (.leaf .comment pos stop, stop)

def singleQuoted (text : List Char) (pos : Nat) : Option (Raw × Nat) := do
  let rest ← dropBytes? (pos + 1) text
  let stop := ((find? '\'' rest).map (pos + · + 2)).getD (bytes text).length
  return (.leaf .singleQuoteString pos stop, stop)

/-- The word from `start` to `stop`; one of digits only is an integer. -/
def wordLeaf (text : List Char) (start stop : Nat) : Option Raw := do
  let word ← slice? text start stop
  return .leaf (if (bytes word).all (isByte Char.isDigit) then .integer else .word) start stop

def bareWord (text : List Char) (pos : Nat) : Option (Raw × Nat) := do
  let stop := wordEnd text pos
  return (← wordLeaf text pos stop, stop)

def closing (text : List Char) (c : Char) (pos : Nat) : List Raw × Nat :=
  if peek? text pos = some c.toUInt8 then ([.token pos (pos + 1)], pos + 1) else ([], pos)

def indexValue (text : List Char) (start stop : Nat) : Option (List Raw) :=
  if start < stop then (wordLeaf text start stop).map ([·]) else some []

def index (text : List Char) (start : Nat) : Option (Raw × Nat) := do
  let stop := skip (fun b => !isByte (fun c => c == ']' || c == '\n') b) text (start + 1)
  let value ← indexValue text (start + 1) stop
  let (close, pos) := closing text ']' stop
  return (.node .index start pos (.token start (start + 1) :: value ++ close), pos)

def expansion (text : List Char) (start : Nat) : Option (Raw × Nat) := do
  let stop := skip (isByte Script.isNameChar) text (start + 1)
  let name := if start + 1 < stop then [Raw.leaf .variableName (start + 1) stop] else []
  let children := .token start (start + 1) :: name
  if peek? text stop = some '['.toUInt8 then
    let (bracket, pos) ← index text stop
    return (.node .variableExpansion start pos (children ++ [bracket]), pos)
  else return (.node .variableExpansion start stop children, stop)

def doubleQuoted (text : List Char) (fuel pos : Nat) : Option (List Raw × Nat) :=
  match fuel with
  | 0 => none
  | fuel + 1 =>
    match peek? text pos with
    | none => some ([], pos)
    | some b =>
      if b = '"'.toUInt8 then some ([.token pos (pos + 1)], pos + 1)
      else if b = '$'.toUInt8 then do
        let (first, pos) ← expansion text pos
        let (more, pos) ← doubleQuoted text fuel pos
        return (first :: more, pos)
      else if b = '\\'.toUInt8 then doubleQuoted text fuel (min (pos + 2) (bytes text).length)
      else doubleQuoted text fuel (pos + 1)

/-- Whether the arguments of a line end here. -/
def atLineEnd (text : List Char) (pos : Nat) : Bool := (peek? text pos).all (isByte Script.endsLine)

/-! ### Statements -/

mutual

def statements (text : List Char) (fuel : Nat) (stops : List (List Char)) (pos : Nat) :
    Option (List Raw × Nat) :=
  match fuel with
  | 0 => none
  | fuel + 1 =>
    let pos := skip (isByte Script.isSeparator) text pos
    match peek? text pos with
    | none => some ([], pos)
    | some b =>
      if b = ')'.toUInt8 then some ([], pos)
      else if b = '#'.toUInt8 then do
        let (first, pos) ← comment text pos
        let (more, pos) ← statements text fuel stops pos
        return (first :: more, pos)
      else do
        let word ← nextWord? text pos
        if stops.contains word then return ([], pos)
        else
          let (first, pos) ← statement text fuel pos
          let (more, pos) ← statements text fuel stops pos
          return (first :: more, pos)

def statement (text : List Char) (fuel pos : Nat) : Option (Raw × Nat) :=
  match fuel with
  | 0 => none
  | fuel + 1 => do
    let word ← nextWord? text pos
    if word = functionWord then functionDefinition text fuel pos
    else if word = forWord then forStatement text fuel pos
    else if word = whileWord then blockStatement text fuel .whileStatement whileWord true pos
    else if word = beginWord then blockStatement text fuel .beginStatement beginWord false pos
    else if word = ifWord then ifStatement text fuel pos
    else command text fuel pos

def functionDefinition (text : List Char) (fuel start : Nat) : Option (Raw × Nat) :=
  match fuel with
  | 0 => none
  | fuel + 1 => do
    let (key, pos) ← keyword text functionWord start
    let (header, pos) ← lineArguments text fuel pos
    let (body, pos) ← statements text fuel [endWord] pos
    let (close, pos) ← keyword text endWord pos
    return (.node .functionDefinition start pos (key :: header ++ body ++ [close]), pos)

def forStatement (text : List Char) (fuel start : Nat) : Option (Raw × Nat) :=
  match fuel with
  | 0 => none
  | fuel + 1 => do
    let (key, pos) ← keyword text forWord start
    let nameStart := skip (isByte Script.isBlank) text pos
    let nameStop := wordEnd text nameStart
    let (link, pos) ← keyword text inWord nameStop
    let (header, pos) ← lineArguments text fuel pos
    let (body, pos) ← statements text fuel [endWord] pos
    let (close, pos) ← keyword text endWord pos
    return (.node .forStatement start pos
      (key :: .leaf .variableName nameStart nameStop :: link :: header ++ body ++ [close]), pos)

def blockStatement (text : List Char) (fuel : Nat) (kind : Kind) (word : List Char)
    (conditional : Bool) (start : Nat) : Option (Raw × Nat) :=
  match fuel with
  | 0 => none
  | fuel + 1 => do
    let (key, pos) ← keyword text word start
    let (test, pos) ←
      if conditional then
        (command text fuel (skip (isByte Script.isBlank) text pos)).map fun (test, pos) =>
          ([test], pos)
      else some ([], pos)
    let (body, pos) ← statements text fuel [endWord] pos
    let (close, pos) ← keyword text endWord pos
    return (.node kind start pos (key :: test ++ body ++ [close]), pos)

def ifStatement (text : List Char) (fuel start : Nat) : Option (Raw × Nat) :=
  match fuel with
  | 0 => none
  | fuel + 1 => do
    let (key, pos) ← keyword text ifWord start
    let (test, pos) ← command text fuel (skip (isByte Script.isBlank) text pos)
    let (body, pos) ← statements text fuel [endWord, elseWord] pos
    let (clauses, pos) ← elseClauses text fuel pos
    let (close, pos) ← keyword text endWord pos
    return (.node .ifStatement start pos (key :: test :: body ++ clauses ++ [close]), pos)

def elseClauses (text : List Char) (fuel pos : Nat) : Option (List Raw × Nat) :=
  match fuel with
  | 0 => none
  | fuel + 1 => do
    let word ← nextWord? text pos
    if word = elseWord then
      let (first, pos) ← elseClause text fuel pos
      let (more, pos) ← elseClauses text fuel pos
      return (first :: more, pos)
    else return ([], pos)

def elseClause (text : List Char) (fuel start : Nat) : Option (Raw × Nat) :=
  match fuel with
  | 0 => none
  | fuel + 1 => do
    let (key, pos) ← keyword text elseWord start
    let pos := skip (isByte Script.isBlank) text pos
    let next ← nextWord? text pos
    if next = ifWord then
      let (key', pos) ← keyword text ifWord pos
      let (test, pos) ← command text fuel (skip (isByte Script.isBlank) text pos)
      let (body, pos) ← statements text fuel [endWord, elseWord] pos
      let clause := key :: key' :: test :: body
      return (.node .elseIfClause start (lastStop start clause) clause, pos)
    else
      let (body, pos) ← statements text fuel [endWord] pos
      let clause := key :: body
      return (.node .elseClause start (lastStop start clause) clause, pos)

def command (text : List Char) (fuel start : Nat) : Option (Raw × Nat) :=
  match fuel with
  | 0 => none
  | fuel + 1 => do
    let (children, pos) ← lineArguments text fuel start
    if children.isEmpty then
      let stop := min (pos + 1) (bytes text).length
      return (.leaf .error start stop, stop)
    else return (.node .command start (lastStop start children) children, pos)

def lineArguments (text : List Char) (fuel pos : Nat) : Option (List Raw × Nat) :=
  match fuel with
  | 0 => none
  | fuel + 1 =>
    let pos := skip (isByte Script.isBlank) text pos
    if atLineEnd text pos then some ([], pos)
    else do
      let (first, pos) ← argument text fuel pos
      let (more, pos) ← lineArguments text fuel pos
      return (first :: more, pos)

def argument (text : List Char) (fuel start : Nat) : Option (Raw × Nat) :=
  match fuel with
  | 0 => none
  | fuel + 1 => do
    let (parts, pos) ← pieces text fuel start
    match parts with
    | [piece] => return (piece, pos)
    | parts => return (.node .concatenation start pos parts, pos)

def pieces (text : List Char) (fuel pos : Nat) : Option (List Raw × Nat) :=
  match fuel with
  | 0 => none
  | fuel + 1 =>
    match peek? text pos with
    | none => some ([], pos)
    | some b =>
      if isByte Script.endsArgument b then some ([], pos)
      else do
        let (first, pos) ← piece text fuel b pos
        let (more, pos) ← pieces text fuel pos
        return (first :: more, pos)

/-- The piece of an argument that starts with the byte `b`. -/
def piece (text : List Char) (fuel : Nat) (b : UInt8) (start : Nat) : Option (Raw × Nat) :=
  match fuel with
  | 0 => none
  | fuel + 1 =>
    if b = '$'.toUInt8 then expansion text start
    else if b = '"'.toUInt8 then do
      let (body, pos) ← doubleQuoted text fuel (start + 1)
      return (.node .doubleQuoteString start pos (.token start (start + 1) :: body), pos)
    else if b = '\''.toUInt8 then singleQuoted text start
    else if b = '('.toUInt8 then do
      let (body, stop) ← statements text fuel [] (start + 1)
      let (close, pos) := closing text ')' stop
      return (.node .commandSubstitution start pos (.token start (start + 1) :: body ++ close), pos)
    else bareWord text start

end

/-! ### Dumps -/

/-- The offsets behind the newlines of a text that starts at `pos`. -/
def newlines (pos : Nat) : List Char → List Nat
  | [] => []
  | c :: cs =>
    if c = '\n' then (pos + 1) :: newlines (pos + 1) cs else newlines (pos + c.utf8Size) cs

def lineStarts (text : List Char) : List Nat := 0 :: newlines 0 text

/-- The position of an offset, in words of 32 bits: it is on the last line that starts no later. -/
def position? (text : List Char) (pos : Nat) : Option Position :=
  match ((lineStarts text).takeWhile (· ≤ pos)).length with
  | 0 => none
  | row + 1 => do
    let start ← (lineStarts text)[row]?
    if start ≤ pos then
      return ⟨row % Position.wordSize, (pos - start) % Position.wordSize⟩
    else none

/-- The tag of a node, and whether it is a name; a node without a name goes by its text. -/
def tagOf? (text : List Char) (kind : Kind) (start stop : Nat) : Option (String × Bool) :=
  match kind.tag? with
  | some tag => some (tag, true)
  | none => (slice? text start stop).map fun cs => (String.ofList cs, false)

mutual

def dump? (text : List Char) : Raw → Option Dump
  | .node kind start stop children => do
    let (tag, named) ← tagOf? text kind start stop
    let first ← position? text start
    let last ← position? text stop
    return ⟨tag, named, ⟨⟨start, first⟩, ⟨stop, last⟩⟩, ← dumpAll? text children⟩

def dumpAll? (text : List Char) : List Raw → Option (List Dump)
  | [] => some []
  | r :: rs => do
    let first ← dump? text r
    return first :: (← dumpAll? text rs)

end

/-- Reads a script, dumps it and loads the dump; `none` also if the dump is refused. -/
def parse? (fuel : Nat) (source : String) : Option Tree := do
  let text := source.toList
  let (children, _) ← statements text fuel [] 0
  let root ← dump? text (.node .program 0 (bytes text).length children)
  (TreeDump.mk source root).load.toOption

end FishNav.Cursor
