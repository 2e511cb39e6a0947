import FishNav.Json.Reader
import FishNav.Toml.Blank

/-!
# Strings of TOML

A string stands between double quotes, where a backslash starts an escape, or between single
quotes, where it does not. Between three quotes of either kind a string may go over several lines:
a line break right behind the opening quotes is left out, every other one is a line feed, and in
double quotes a backslash at the end of a line takes the blanks and line breaks that follow with it.
-/
namespace FishNav.Toml

open Text
open Reading (here)

/-- The character that a backslash and one letter name. -/
def escape? : Char → Option Char
  | 'b' => some (Char.ofNat 0x08)
  | 't' => some '\t'
  | 'n' => some '\n'
  | 'f' => some (Char.ofNat 0x0c)
  | 'r' => some '\r'
  | '"' => some '"'
  | '\\' => some '\\'
  | _ => none

/-- The character with a code; halves of surrogate pairs and codes past the last character have
none. -/
def charOfCode? (code : Nat) : Option Char :=
  if code < 0xd800 ∨ (0xdfff < code ∧ code < 0x110000) then some (Char.ofNat code) else none

/-- Reads what follows a backslash: a letter, or `u` with four hexadecimal digits, or `U` with
eight. -/
def escaped : (cs : List Char) → Option (Reading Char cs)
  | 'u' :: a :: b :: c :: d :: _ => do
    let char ← charOfCode? (← Json.hexCode? a b c d)
    return (here char).cons.cons.cons.cons.cons
  | 'U' :: a :: b :: c :: d :: e :: f :: g :: i :: _ => do
    let char ← charOfCode? ((← Json.hexCode? a b c d) * 0x10000 + (← Json.hexCode? e f g i))
    return (here char).cons.cons.cons.cons.cons.cons.cons.cons.cons
  | c :: _ => do
    let char ← escape? c
    return (here char).cons
  | [] => none

/-! ### On one line -/

/-- Reads a string behind its opening double quote, up to and with the closing one. -/
def basicString : (cs : List Char) → Option (Reading (List Char) cs)
  | [] => none
  | '"' :: _ => some (here []).cons
  | '\\' :: cs => do
    let ⟨char, rest, h⟩ ← escaped cs
    let more ← basicString rest
    return (more.map (char :: ·) |>.behind h).cons
  | c :: cs =>
    if isTextChar c then do
      let more ← basicString cs
      return (more.map (c :: ·)).cons
    else none
termination_by cs => cs.length

/-- Reads a string behind its opening single quote, up to and with the closing one. -/
def literalString (cs : List Char) : Option (Reading (List Char) cs) :=
  let ⟨body, rest, h⟩ := skip (fun c => isTextChar c && c != '\'') cs
  match rest with
  | '\'' :: _ => some (here body |>.cons |>.behind h)
  | _ => none

def shortString (quote : Char) (cs : List Char) : Option (Reading (List Char) cs) :=
  if quote = '"' then basicString cs else literalString cs

/-! ### Over several lines -/

/-- Reads three quotes and up to two in front of them, which belong to the string. -/
def closing? (quote : Char) (cs : List Char) : Option (Reading (List Char) cs) :=
  let quotes := (cs.takeWhile (· == quote)).length
  if quotes < 3 then none
  else
    some ⟨List.replicate (min quotes 5 - 3) quote, cs.drop (min quotes 5),
      (List.drop_suffix _ cs).length_le⟩

/-- Reads the end of a line behind a backslash, and the blanks and line breaks that follow it. -/
def continuation? (cs : List Char) : Option (Reading Unit cs) := do
  let ⟨_, rest, h⟩ := skip isBlank cs
  let ⟨_, rest₁, h₁⟩ ← lineBreak? rest
  return gap rest₁ |>.behind h₁ |>.behind h

/-- Reads on behind the character `c` of a string over several lines, as far as that goes together
with `c`, into what both stand for. -/
def longChar (quote c : Char) (cs : List Char) : Option (Reading (List Char) cs) :=
  if c = '\\' && quote = '"' then
    match continuation? cs with
    | some r => some (r.map fun _ => [])
    | none => (escaped cs).map fun r => r.map fun char => [char]
  else if c = '\r' then (char? '\n' cs).map fun next => here ['\n'] |>.past next.lt
  else if isTextChar c || c = '\n' then some (here [c])
  else none

/-- Reads the rest of a string over several lines, up to and with the closing quotes. -/
def longString (quote : Char) : (cs : List Char) → Option (Reading (List Char) cs)
  | [] => none
  | c :: cs =>
    match closing? quote (c :: cs) with
    | some last => some last
    | none => do
      let ⟨chars, rest, h⟩ ← longChar quote c cs
      let more ← longString quote rest
      return (more.map (chars ++ ·) |>.behind h).cons
termination_by cs => cs.length

def longBody (quote : Char) (cs : List Char) : Option (Reading (List Char) cs) :=
  match lineBreak? cs with
  | some ⟨_, rest, h⟩ => (longString quote rest).map (·.behind h)
  | none => longString quote cs

def string (quote : Char) : (cs : List Char) → Option (Reading (List Char) cs)
  | a :: b :: cs =>
    if a = quote && b = quote then (longBody quote cs).map (·.cons.cons)
    else shortString quote (a :: b :: cs)
  | cs => shortString quote cs

end FishNav.Toml
