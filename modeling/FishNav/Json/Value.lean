/-!
# JSON values

Numbers that are written as plain digits are natural numbers; any other numeral is kept as it was
written. A string may hold an escape for half of a surrogate pair: it can be skipped over, but it
is the text of nothing, so it is `unreadable`, and so is an object with such a key.
-/
namespace FishNav

inductive Json where
  | null
  | bool (b : Bool)
  | nat (n : Nat)
  | decimal (numeral : String)
  | str (s : String)
  | arr (items : List Json)
  | obj (members : List (String × Json))
  | unreadable
  deriving Repr

namespace Json

/-- The value of the last member with this key. -/
def get? (key : String) : Json → Option Json
  | obj members => (members.reverse.find? (·.1 == key)).map (·.2)
  | _ => none

end Json

end FishNav
