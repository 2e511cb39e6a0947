import FishNav.Json.Value
import FishNav.Text.Reading

/-!
# Reading JSON

The grammar of JSON, with nothing added: no comments, no trailing commas, no control characters in
strings, nothing but blanks behind the value. Members of objects keep their order, and a key may
come twice; what that means is for those who use the value to say. Of a text that is refused nothing
is told, neither what is wrong with it nor where.
-/
namespace FishNav.Json

open Text
open Reading (here)

def isSpace (c : Char) : Bool := c == ' ' || c == '\t' || c == '\n' || c == '\r'

/-! ### Strings -/

def hexDigit? (c : Char) : Option Nat :=
  if '0' ≤ c ∧ c ≤ '9' then some (c.toNat - '0'.toNat)
  else if 'a' ≤ c ∧ c ≤ 'f' then some (c.toNat - 'a'.toNat + 10)
  else if 'A' ≤ c ∧ c ≤ 'F' then some (c.toNat - 'A'.toNat + 10)
  else none

/-- The code that four hexadecimal digits name. -/
def hexCode? (a b c d : Char) : Option Nat := do
  let a ← hexDigit? a
  let b ← hexDigit? b
  let c ← hexDigit? c
  let d ← hexDigit? d
  return ((a * 16 + b) * 16 + c) * 16 + d

/-- The code that a backslash and one character name. -/
def escapeCode? : Char → Option Nat
  | '"' => some 0x22
  | '\\' => some 0x5c
  | '/' => some 0x2f
  | 'b' => some 0x08
  | 'f' => some 0x0c
  | 'n' => some 0x0a
  | 'r' => some 0x0d
  | 't' => some 0x09
  | _ => none

/-- Reads a string behind its opening quote, up to and with the closing one, into codes: code
points, and halves of surrogate pairs that were written as escapes. -/
def codes : (cs : List Char) → Option (Reading (List Nat) cs)
  | [] => none
  | '"' :: _ => some (here []).cons
  | '\\' :: 'u' :: a :: b :: c :: d :: cs => do
    let code ← hexCode? a b c d
    let more ← codes cs
    return (more.map (code :: ·)).cons.cons.cons.cons.cons.cons
  | '\\' :: c :: cs => do
    let code ← escapeCode? c
    let more ← codes cs
    return (more.map (code :: ·)).cons.cons
  | c :: cs =>
    if c.toNat < 0x20 then none
    else do
      let more ← codes cs
      return (more.map (c.toNat :: ·)).cons

def isLeadingHalf (code : Nat) : Bool := 0xd800 ≤ code && code ≤ 0xdbff

def isTrailingHalf (code : Nat) : Bool := 0xdc00 ≤ code && code ≤ 0xdfff

/-- The characters of a list of codes: a leading half and a trailing half make one character, and
a half by itself makes none. -/
def charsOfCodes? : List Nat → Option (List Char)
  | [] => some []
  | [code] =>
    if isLeadingHalf code || isTrailingHalf code then none else some [Char.ofNat code]
  | code :: next :: more =>
    if isLeadingHalf code then
      if isTrailingHalf next then
        let joined := 0x10000 + (code - 0xd800) * 0x400 + (next - 0xdc00)
        (charsOfCodes? more).map (Char.ofNat joined :: ·)
      else none
    else if isTrailingHalf code then none
    else (charsOfCodes? (next :: more)).map (Char.ofNat code :: ·)

def stringOfCodes? (cs : List Nat) : Option String := (charsOfCodes? cs).map String.ofList

/-! ### Numbers -/

def isNumeralChar (c : Char) : Bool :=
  c.isDigit || c == '-' || c == '+' || c == '.' || c == 'e' || c == 'E'

/-- Digits without a zero in front. -/
def isPlain : List Char → Bool
  | [] => false
  | ['0'] => true
  | '0' :: _ => false
  | cs => cs.all Char.isDigit

def natOfDigits (cs : List Char) : Nat :=
  cs.foldl (fun n c => n * 10 + (c.toNat - '0'.toNat)) 0

/-- An exponent behind its `e`: a sign, if any, and digits. -/
def isExponent : List Char → Bool
  | '+' :: cs => !cs.isEmpty && cs.all Char.isDigit
  | '-' :: cs => !cs.isEmpty && cs.all Char.isDigit
  | cs => !cs.isEmpty && cs.all Char.isDigit

/-- What may follow the whole part: a fraction, if any, and an exponent, if any. -/
def isNumeralTail : List Char → Bool
  | [] => true
  | '.' :: cs =>
    !(cs.takeWhile Char.isDigit).isEmpty &&
      match cs.dropWhile Char.isDigit with
      | [] => true
      | e :: exponent => (e == 'e' || e == 'E') && isExponent exponent
  | e :: exponent => (e == 'e' || e == 'E') && isExponent exponent

/-- A numeral: a minus sign, if any, a whole part without a zero in front, a fraction, an
exponent. -/
def isNumeral (cs : List Char) : Bool :=
  let unsigned := match cs with
    | '-' :: cs => cs
    | cs => cs
  isPlain (unsigned.takeWhile Char.isDigit) && isNumeralTail (unsigned.dropWhile Char.isDigit)

def ofNumeral? (cs : List Char) : Option Json :=
  if isPlain cs then some (.nat (natOfDigits cs))
  else if isNumeral cs then some (.decimal (String.ofList cs))
  else none

/-! ### Values -/

mutual

/-- Reads a value and the blanks before it. -/
def value (cs : List Char) : Option (Reading Json cs) := do
  let ⟨_, c, tail, h⟩ ← next? isSpace cs
  if c = '"' then
    let found ← codes tail
    return found.map (fun codes => ((stringOfCodes? codes).map str).getD unreadable) |>.past h
  else if c = '[' then
    let found ← items tail
    return found.map arr |>.past h
  else if c = '\x7b' then
    let found ← members tail
    return found.map (fun members => (members.map obj).getD unreadable) |>.past h
  else if isNumeralChar c && c != 'e' && c != 'E' then
    let ⟨more, rest, h'⟩ := skip isNumeralChar tail
    let number ← ofNumeral? (c :: more)
    return here number |>.behind h' |>.past h
  else
    let ⟨more, rest, h'⟩ := skip Char.isAlpha tail
    match c :: more with
    | ['n', 'u', 'l', 'l'] => return here null |>.behind h' |>.past h
    | ['t', 'r', 'u', 'e'] => return here (bool true) |>.behind h' |>.past h
    | ['f', 'a', 'l', 's', 'e'] => return here (bool false) |>.behind h' |>.past h
    | _ => none
termination_by 3 * cs.length

/-- Reads the items of an array behind its opening bracket, up to and with the closing one. -/
def items (cs : List Char) : Option (Reading (List Json) cs) := do
  let ⟨_, c, tail, h⟩ ← next? isSpace cs
  if c = ']' then return here [] |>.past h
  else moreItems cs
termination_by 3 * cs.length + 2

def moreItems (cs : List Char) : Option (Reading (List Json) cs) := do
  let ⟨first, rest, h⟩ ← value cs
  let ⟨_, c, tail, h'⟩ ← next? isSpace rest
  if c = ',' then
    let more ← moreItems tail
    return more.map (first :: ·) |>.past h' |>.behind h
  else if c = ']' then return here [first] |>.past h' |>.behind h
  else none
termination_by 3 * cs.length + 1

/-- Reads the members of an object behind its opening brace, up to and with the closing one; `none`
inside if one of the keys is no text. -/
def members (cs : List Char) : Option (Reading (Option (List (String × Json))) cs) := do
  let ⟨_, c, tail, h⟩ ← next? isSpace cs
  if c = '\x7d' then return here (some []) |>.past h
  else moreMembers cs
termination_by 3 * cs.length + 2

def moreMembers (cs : List Char) : Option (Reading (Option (List (String × Json))) cs) := do
  let ⟨_, quote, tail, h⟩ ← next? isSpace cs
  if quote = '"' then
    let ⟨codes, rest, h₁⟩ ← codes tail
    let ⟨_, colon, tail₁, h₂⟩ ← next? isSpace rest
    if colon = ':' then
      let ⟨first, rest₂, h₃⟩ ← value tail₁
      let member := (stringOfCodes? codes).map fun key => (key, first)
      let ⟨_, c, tail₂, h₄⟩ ← next? isSpace rest₂
      if c = ',' then
        let more ← moreMembers tail₂
        return more.map (fun more => member.bind fun m => more.map (m :: ·))
          |>.past h₄ |>.behind h₃ |>.past h₂ |>.behind h₁ |>.past h
      else if c = '\x7d' then
        return here (member.map ([·])) |>.past h₄ |>.behind h₃ |>.past h₂ |>.behind h₁ |>.past h
      else none
    else none
  else none
termination_by 3 * cs.length + 1

end

def parse? (text : String) : Option Json := do
  let ⟨found, rest, _⟩ ← value text.toList
  if rest.all isSpace then some found else none

end FishNav.Json
