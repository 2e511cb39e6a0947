import FishNav.Json.Reader
import FishNav.Text.Split

/-!
# Numbers of TOML

Whole numbers, in base ten with a sign or in base sixteen, eight or two without one, and numbers
with a fraction or an exponent. Single underscores may stand between the digits. Whole numbers that
are not negative are natural numbers of JSON, other numbers keep their spelling.
-/
namespace FishNav.Toml

open Text

/-- Digits of a kind with single underscores between them. -/
def isDigits (isDigit : Char → Bool) (cs : List Char) : Bool :=
  (split '_' cs).all fun run => !run.isEmpty && run.all isDigit

def isHexDigit (c : Char) : Bool := (Json.hexDigit? c).isSome

def isOctalDigit (c : Char) : Bool := '0' ≤ c && c ≤ '7'

def isBinaryDigit (c : Char) : Bool := c == '0' || c == '1'

/-- The number that the digits among `cs` write in a base. -/
def natOfBase (base : Nat) (cs : List Char) : Nat :=
  (cs.filterMap Json.hexDigit?).foldl (fun n d => n * base + d) 0

/-- Whole digits without a zero in front. -/
def isWhole (cs : List Char) : Bool :=
  isDigits Char.isDigit cs && (cs.length ≤ 1 || cs.head? != some '0')

/-- Whether there is a minus sign, and what follows the sign. -/
def unsigned : List Char → Bool × List Char
  | '+' :: cs => (false, cs)
  | '-' :: cs => (true, cs)
  | cs => (false, cs)

/-! ### Fractions and exponents -/

/-- A number with a fraction or an exponent, without its sign. -/
structure Scientific where
  whole : List Char
  fraction : List Char
  /-- Whether the exponent is negative. -/
  isSmall : Bool
  power : List Char

namespace Scientific

/-- The sign and the digits of an exponent behind its mark, if there is one. -/
def exponent? : List Char → Option (Bool × List Char)
  | [] => some (false, [])
  | mark :: power =>
    if (mark == 'e' || mark == 'E') && isDigits Char.isDigit (unsigned power).2 then
      some (unsigned power)
    else none

def isRunChar (c : Char) : Bool := c.isDigit || c == '_'

/-- The number that is written without a sign, with a fraction, an exponent or both. -/
def ofChars? (cs : List Char) : Option Scientific := do
  let whole := cs.takeWhile isRunChar
  guard (isWhole whole)
  match cs.dropWhile isRunChar with
  | [] => none
  | '.' :: tail =>
    let fraction := tail.takeWhile isRunChar
    guard (isDigits Char.isDigit fraction)
    let (isSmall, power) ← exponent? (tail.dropWhile isRunChar)
    return ⟨whole, fraction, isSmall, power⟩
  | tail =>
    let (isSmall, power) ← exponent? tail
    return ⟨whole, [], isSmall, power⟩

/-- The least whole number that is nearer to 2¹⁰²⁴ than to the largest number of double precision,
2¹⁰²⁴ - 2⁹⁷¹, or as near. -/
def bound : Nat := 0x3fffffffffffff <<< 970

def boundDigits : Nat := 309

/-- Whether the number is too large for double precision. Its digits without zeros in front decide
together with the place of the point: one digit more than `bound` has is too many, one less is
always few enough, and with as many the whole part is compared. -/
def isTooLarge (s : Scientific) : Bool :=
  let fraction := s.fraction.filter (· != '_')
  let digits := (s.whole.filter (· != '_') ++ fraction).dropWhile (· == '0')
  let power := natOfBase 10 s.power
  let places := digits.length + if s.isSmall then 0 else power
  let needed := boundDigits + fraction.length + if s.isSmall then power else 0
  !digits.isEmpty && (needed < places || (needed == places &&
    bound ≤ natOfBase 10 ((digits ++ List.replicate boundDigits '0').take boundDigits)))

end Scientific

/-- Whether `cs` is a number with a fraction or an exponent, or `inf` or `nan`, with or without a
sign. Of the numbers that are too large only the negative ones pass. -/
def isReal (cs : List Char) : Bool :=
  let (negative, digits) := unsigned cs
  match Scientific.ofChars? digits with
  | some s => negative || !s.isTooLarge
  | none => digits == ['i', 'n', 'f'] || digits == ['n', 'a', 'n']

/-- The number that a numeral writes. Whole numbers must fit into 64 bits with a sign. -/
def ofNumeral? (cs : List Char) : Option Json :=
  let limit := 0x8000000000000000
  let (negative, digits) := unsigned cs
  let whole := fun n =>
    if negative then if n ≤ limit then some (Json.decimal (String.ofList cs)) else none
    else if n < limit then some (Json.nat n) else none
  match cs with
  | '0' :: 'x' :: digits => if isDigits isHexDigit digits then whole (natOfBase 16 digits) else none
  | '0' :: 'o' :: digits => if isDigits isOctalDigit digits then whole (natOfBase 8 digits) else none
  | '0' :: 'b' :: digits =>
    if isDigits isBinaryDigit digits then whole (natOfBase 2 digits) else none
  | _ =>
    if isWhole digits then whole (natOfBase 10 digits)
    else if isReal cs then some (.decimal (String.ofList cs))
    else none

end FishNav.Toml
