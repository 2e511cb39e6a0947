import FishNav.Script.Cst
import FishNav.Text.Reading

/-!
# Reading fish scripts

A reader for the statements that matter to navigation: functions, loops, conditionals, blocks,
commands and comments, and in their arguments variable expansions, quotes and command
substitutions. Every text can be read: a keyword that is missing leaves an empty token, a missing
condition takes one character as an `error` node, and a closing parenthesis that was never opened
ends the program.

Readers return the parts they read together with the text that follows, which is never longer than
the text they were given; that is also why reading ends.
-/
namespace FishNav.Script

open Text
open Reading (here)

/-! ### Words -/

/-- Between arguments: a space or a tab. -/
def isBlank (c : Char) : Bool := c == ' ' || c == '\t'

/-- Between statements: a blank, a newline or a semicolon. -/
def isSeparator (c : Char) : Bool := isBlank c || c == '\n' || c == ';'

def endsArgument (c : Char) : Bool := isSeparator c || c == ')'

/-- Ends a word: a separator, a parenthesis, a quote or a dollar sign. -/
def endsWord (c : Char) : Bool :=
  endsArgument c || c == '(' || c == '"' || c == '\'' || c == '$'

/-- The word at the front of a text, and what follows it. A backslash takes the next character
into the word, whatever it is. -/
def word : List Char → List Char × List Char
  | [] => ([], [])
  | '\\' :: c :: cs => ('\\' :: c :: (word cs).1, (word cs).2)
  | c :: cs => if endsWord c then ([], c :: cs) else (c :: (word cs).1, (word cs).2)

theorem word_append (cs : List Char) : (word cs).1 ++ (word cs).2 = cs := by
  fun_induction word cs <;> simp_all

theorem length_word_le (cs : List Char) : (word cs).2.length ≤ cs.length := by
  have h := congrArg List.length (word_append cs)
  rw [List.length_append] at h
  omega

def readWord (cs : List Char) : Reading (List Char) cs :=
  ⟨(word cs).1, (word cs).2, length_word_le cs⟩

/-- Reads the word that starts with `c`, whatever `c` is. -/
def readWordFrom (c : Char) (cs : List Char) : Reading (List Char) cs :=
  match c, cs with
  | '\\', d :: ds => ((readWord ds).map ('\\' :: d :: ·)).cons
  | c, cs => (readWord cs).map (c :: ·)

/-- A word of digits is an integer. -/
def wordLeaf (cs : List Char) : Cst :=
  .leaf (if cs.all Char.isDigit then .integer else .word) cs

/-! ### Keywords -/

def functionWord : List Char := ['f', 'u', 'n', 'c', 't', 'i', 'o', 'n']
def forWord : List Char := ['f', 'o', 'r']
def inWord : List Char := ['i', 'n']
def whileWord : List Char := ['w', 'h', 'i', 'l', 'e']
def beginWord : List Char := ['b', 'e', 'g', 'i', 'n']
def ifWord : List Char := ['i', 'f']
def elseWord : List Char := ['e', 'l', 's', 'e']
def endWord : List Char := ['e', 'n', 'd']

/-- Reads a keyword after a gap of characters in `gap`. If another word stands there, the keyword
is an empty token behind the gap. -/
def keyword (gap : Char → Bool) (key cs : List Char) : Reading (List Cst) cs :=
  match next? gap cs with
  | some ⟨_, c, tail, h⟩ =>
    let ⟨found, _, h'⟩ := readWordFrom c tail
    if found = key then here [.text (cs.takeWhile gap), .token key] |>.behind h' |>.past h
    else absent
  | none => absent
where
  absent : Reading (List Cst) cs := (skip gap cs).map fun blank => [.text blank, .token []]

/-! ### Arguments without substitutions -/

/-- Reads the character `c` as a token, if it stands there. -/
def closing (c : Char) : (cs : List Char) → Reading (List Cst) cs
  | d :: _ => if d = c then (here [.token [c]]).cons else here []
  | [] => here []

def isNameChar (c : Char) : Bool := c.isAlphanum || c == '_'

/-- May stand in an index: no closing bracket and no newline. -/
def isIndexChar (c : Char) : Bool := c != ']' && c != '\n'

/-- Reads `[index]` after its opening bracket; the closing bracket may be missing. -/
def index (cs : List Char) : Reading Cst cs :=
  let ⟨value, rest, h⟩ := skip isIndexChar cs
  let inner := .token ['['] :: if value = [] then [] else [wordLeaf value]
  (closing ']' rest).map (fun bracket => .node .index (inner ++ bracket)) |>.behind h

/-- Reads `$name[index]` after its dollar sign; the name and the index may be missing. -/
def expansion (cs : List Char) : Reading Cst cs :=
  let ⟨name, rest, h⟩ := skip isNameChar cs
  let inner := .token ['$'] :: if name = [] then [] else [.leaf .variableName name]
  match rest with
  | '[' :: rest =>
    ((index rest).map fun bracket => .node .variableExpansion (inner ++ [bracket])).cons.behind h
  | _ => here (.node .variableExpansion inner) |>.behind h

/-- Reads a string after its opening double quote, up to and with the closing one. Expansions in
it are read; a backslash makes the next character plain. -/
def doubleQuoted : (cs : List Char) → Reading (List Cst) cs
  | [] => here []
  | '"' :: _ => (here [.token ['"']]).cons
  | '$' :: cs =>
    let ⟨first, rest, h⟩ := expansion cs
    (((doubleQuoted rest).map (first :: ·)).behind h).cons
  | '\\' :: c :: cs => ((doubleQuoted cs).map (.text ['\\', c] :: ·)).cons.cons
  | c :: cs => ((doubleQuoted cs).map (.text [c] :: ·)).cons
termination_by cs => cs.length

/-- Reads a string after its opening single quote, up to and with the next one. -/
def singleQuoted (cs : List Char) : Reading Cst cs :=
  let ⟨body, rest, h⟩ := skip (· != '\'') cs
  match rest with
  | quote :: _ =>
    here (.leaf .singleQuoteString ('\'' :: body ++ [quote])) |>.cons |>.behind h
  | [] => here (.leaf .singleQuoteString ('\'' :: body)) |>.behind h

/-- Takes one character, if there is one, as an error in the place of a condition. -/
def missing : (cs : List Char) → Reading Cst cs
  | [] => here (.leaf .error [])
  | c :: _ => (here (.leaf .error [c])).cons

/-! ### Statements -/

def endsLine (c : Char) : Bool := c == '\n' || c == ';' || c == '#' || c == ')'

/-- One piece is an argument by itself, several make a concatenation. -/
def argumentOf : List Cst → Cst
  | [piece] => piece
  | pieces => .node .concatenation pieces

mutual

/-- Reads statements up to the end of the text, a closing parenthesis, or one of the words `stops`
where a statement may start. What separates the last statement from there is not read. -/
def statements (stops : List (List Char)) (cs : List Char) : Reading (List Cst) cs :=
  match next? isSeparator cs with
  | none => here []
  | some ⟨gap, c, tail, h⟩ =>
    if c = ')' then here []
    else if c = '#' then
      let ⟨line, rest, h'⟩ := skip (· != '\n') tail
      (statements stops rest).map (fun more => .text gap :: .leaf .comment (c :: line) :: more)
        |>.behind h' |>.past h
    else if stops.contains (readWordFrom c tail).value then here []
    else
      let ⟨first, rest, h'⟩ := statement c tail
      (statements stops rest).map (fun more => .text gap :: first :: more)
        |>.behind h' |>.past h
termination_by 4 * cs.length + 3

/-- Reads statements and the `end` behind them. -/
def block (cs : List Char) : Reading (List Cst) cs :=
  let ⟨body, rest, h⟩ := statements [endWord] cs
  (keyword isSeparator endWord rest).map (body ++ ·) |>.behind h
termination_by 4 * cs.length + 4

def statement (c : Char) (cs : List Char) : Reading Cst cs :=
  let ⟨key, rest, h⟩ := readWordFrom c cs
  if key = functionWord then
    let ⟨header, rest₁, h₁⟩ := arguments rest
    (block rest₁).map (fun body => .node .functionDefinition (.token key :: header ++ body))
      |>.behind h₁ |>.behind h
  else if key = forWord then
    let ⟨gap, rest₁, h₁⟩ := skip isBlank rest
    let ⟨name, rest₂, h₂⟩ := readWord rest₁
    let ⟨link, rest₃, h₃⟩ := keyword isBlank inWord rest₂
    let ⟨header, rest₄, h₄⟩ := arguments rest₃
    (block rest₄).map (fun body => .node .forStatement
        (.token key :: .text gap :: .leaf .variableName name :: link ++ header ++ body))
      |>.behind h₄ |>.behind h₃ |>.behind h₂ |>.behind h₁ |>.behind h
  else if key = whileWord then
    let ⟨test, rest₁, h₁⟩ := condition rest
    (block rest₁).map (fun body => .node .whileStatement (.token key :: test ++ body))
      |>.behind h₁ |>.behind h
  else if key = beginWord then
    (block rest).map (fun body => .node .beginStatement (.token key :: body)) |>.behind h
  else if key = ifWord then
    let ⟨branch, rest₁, h₁⟩ := branch rest
    let ⟨clauses, rest₂, h₂⟩ := elseClauses rest₁
    (keyword isSeparator endWord rest₂).map
        (fun close => .node .ifStatement (.token key :: branch ++ clauses ++ close))
      |>.behind h₂ |>.behind h₁ |>.behind h
  else
    let ⟨first, rest₁, h₁⟩ := argument c cs
    (arguments rest₁).map (fun more => .node .command (first :: more)) |>.behind h₁
termination_by 4 * cs.length + 6

def branch (cs : List Char) : Reading (List Cst) cs :=
  let ⟨test, rest, h⟩ := condition cs
  (statements [endWord, elseWord] rest).map (test ++ ·) |>.behind h
termination_by 4 * cs.length + 4

/-- Reads the `else` clauses of a conditional, each with the separators before it. -/
def elseClauses (cs : List Char) : Reading (List Cst) cs :=
  match next? isSeparator cs with
  | none => here []
  | some ⟨gap, c, tail, h⟩ =>
    let ⟨key, rest, h₀⟩ := readWordFrom c tail
    if key = elseWord then
      let ⟨clause, rest₁, h₁⟩ := elseClause rest
      (elseClauses rest₁).map (fun more => .text gap :: clause :: more)
        |>.behind h₁ |>.behind h₀ |>.past h
    else here []
termination_by 4 * cs.length + 3

/-- Reads an `else` clause behind its keyword; an `if` on the same line makes it conditional. -/
def elseClause (cs : List Char) : Reading Cst cs :=
  let ⟨gap, rest, h⟩ := skip isBlank cs
  let ⟨key, rest₁, h₁⟩ := readWord rest
  if key = ifWord then
    (branch rest₁).map
        (fun branch => .node .elseIfClause (.token elseWord :: .text gap :: .token key :: branch))
      |>.behind h₁ |>.behind h
  else (statements [endWord] cs).map fun body => .node .elseClause (.token elseWord :: body)
termination_by 4 * cs.length + 5

def condition (cs : List Char) : Reading (List Cst) cs :=
  let ⟨gap, rest, h⟩ := skip isBlank cs
  let ⟨parts, _, h'⟩ := arguments rest
  if parts.isEmpty then (missing rest).map (fun found => [.text gap, found]) |>.behind h
  else here [.text gap, .node .command parts] |>.behind h' |>.behind h
termination_by 4 * cs.length + 3

/-- Reads the arguments up to the end of the line, each with the blanks before it. -/
def arguments (cs : List Char) : Reading (List Cst) cs :=
  match next? isBlank cs with
  | none => here []
  | some ⟨gap, c, tail, h⟩ =>
    if endsLine c then here []
    else
      let ⟨first, rest, h'⟩ := argument c tail
      (arguments rest).map (fun more => .text gap :: first :: more) |>.behind h' |>.past h
termination_by 4 * cs.length + 2

def argument (c : Char) (cs : List Char) : Reading Cst cs :=
  let ⟨first, rest, h⟩ := piece c cs
  (pieces rest).map (fun more => argumentOf (first :: more)) |>.behind h
termination_by 4 * cs.length + 5

def pieces : (cs : List Char) → Reading (List Cst) cs
  | [] => here []
  | c :: cs =>
    if endsArgument c then here []
    else
      let ⟨first, rest, h⟩ := piece c cs
      (((pieces rest).map (first :: ·)).behind h).cons
termination_by cs => 4 * cs.length + 1

/-- Reads the piece of an argument that starts with `c`: an expansion, a string, a substitution or
a word. -/
def piece (c : Char) (cs : List Char) : Reading Cst cs :=
  if c = '$' then expansion cs
  else if c = '"' then
    (doubleQuoted cs).map fun body => .node .doubleQuoteString (.token ['"'] :: body)
  else if c = '\'' then singleQuoted cs
  else if c = '(' then
    let ⟨body, rest, h⟩ := statements [] cs
    let ⟨gap, rest₁, h₁⟩ := skip isSeparator rest
    (closing ')' rest₁).map
        (fun close => .node .commandSubstitution (.token ['('] :: body ++ .text gap :: close))
      |>.behind h₁ |>.behind h
  else (readWordFrom c cs).map wordLeaf
termination_by 4 * cs.length + 4

end

/-- The parts of a script. Text behind a closing parenthesis that was never opened belongs to no
statement. -/
def parts (cs : List Char) : List Cst :=
  let body := statements [] cs
  body.value ++ [.text body.rest]

/-- The dump of a script: a program that covers the whole text. -/
def dump (source : String) : TreeDump :=
  let (children, stop) := Cst.placeAll .origin (parts source.toList)
  { source
    root := { tag := "program", named := true, span := ⟨.origin, stop⟩, children } }

end FishNav.Script
