import FishNav.Json.Reader

/-!
# Dates and times of TOML

A date, a time, or both with `T` or a blank between them; a time behind a date may have an offset.
-/
namespace FishNav.Toml

/-- Digits that write a number from `low` to `high`. -/
def isBetween (low high : Nat) (cs : List Char) : Bool :=
  cs.all Char.isDigit && low ≤ Json.natOfDigits cs && Json.natOfDigits cs ≤ high

def isLeapYear (year : Nat) : Bool := year % 4 == 0 && (year % 100 != 0 || year % 400 == 0)

def daysIn (year month : Nat) : Nat :=
  if month = 2 then if isLeapYear year then 29 else 28
  else if [4, 6, 9, 11].contains month then 30
  else 31

def isDate : List Char → Bool
  | [a, b, c, d, '-', m, n, '-', x, y] =>
    let year := [a, b, c, d]
    let month := [m, n]
    isBetween 0 9999 year && isBetween 1 12 month &&
      isBetween 1 (daysIn (Json.natOfDigits year) (Json.natOfDigits month)) [x, y]
  | _ => false

/-- Nothing, or a point and digits. -/
def isSecondFraction : List Char → Bool
  | [] => true
  | '.' :: digits => !digits.isEmpty && digits.all Char.isDigit
  | _ => false

def isTime : List Char → Bool
  | h :: i :: ':' :: m :: n :: ':' :: s :: t :: fraction =>
    isBetween 0 23 [h, i] && isBetween 0 59 [m, n] && isBetween 0 60 [s, t] &&
      isSecondFraction fraction
  | _ => false

/-- Nothing, or `Z`, or hours and minutes with a sign. -/
def isOffset : List Char → Bool
  | [] => true
  | [c] => c == 'Z' || c == 'z'
  | [sign, h, i, ':', m, n] =>
    (sign == '+' || sign == '-') && isBetween 0 23 [h, i] && isBetween 0 59 [m, n]
  | _ => false

def isZonedTime (cs : List Char) : Bool :=
  let clock := fun c : Char => c.isDigit || c == ':' || c == '.'
  isTime (cs.takeWhile clock) && isOffset (cs.dropWhile clock)

/-- The letter between a date and a time, and a time. -/
def isTimeOfDate : List Char → Bool
  | c :: time => (c == 'T' || c == 't') && isZonedTime time
  | [] => false

/-- A time, or a date and a time with a letter between them. -/
def isMoment (cs : List Char) : Bool :=
  isTime cs || (isDate (cs.take 10) && isTimeOfDate (cs.drop 10))

/-- A date or a time as a value: an object with its text. -/
def moment (cs : List Char) : Json := .obj [("date-time", .str (String.ofList cs))]

end FishNav.Toml
