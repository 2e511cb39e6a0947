import FishNav.Text.Position

/-!
# Symbols

A symbol is a definition with a name: a function or a variable. Its range takes in the whole
construct that defines it, with the comments directly above; its selection is the name alone.
Symbols nest: what is defined inside a function stands below the function.
-/
namespace FishNav

inductive SymbolKind where
  | function
  | var
  deriving DecidableEq, Repr

namespace SymbolKind

def name : SymbolKind → String
  | function => "function"
  | var => "variable"

/-- The kind that a word names, long or short, in any mix of letter case. All the letters are
ASCII, and no other letter has one of them as its lower case. -/
def ofWord? (word : String) : Option SymbolKind :=
  let lower := String.ofList (word.toList.map Char.toLower)
  if lower == "function" || lower == "fn" then some function
  else if lower == "variable" || lower == "var" then some var
  else none

def unknownMessage (word : String) : String := "Unknown symbol kind: " ++ word

end SymbolKind

structure Symbol where
  name : String
  kind : SymbolKind
  range : Range
  selection : Range
  /-- The text of the comments directly above the definition. -/
  detail : Option String
  children : List Symbol
  deriving Repr

namespace Symbol

def isFunction (s : Symbol) : Bool := s.kind == .function

def leaf (s : Symbol) : Symbol := { s with children := [] }

/-- The symbol with this text as its detail; an empty text is none. -/
def withDetail (s : Symbol) (text : String) : Symbol :=
  { s with detail := if text.isEmpty then none else some text }

mutual

/-- The number of symbols in a symbol, itself included. -/
def count : Symbol → Nat
  | ⟨_, _, _, _, _, children⟩ => countAll children + 1

def countAll : List Symbol → Nat
  | [] => 0
  | s :: ss => count s + countAll ss

end

theorem count_eq (s : Symbol) : s.count = countAll s.children + 1 := by
  cases s
  simp only [count]

theorem countAll_append (ss ts : List Symbol) :
    countAll (ss ++ ts) = countAll ss + countAll ts := by
  induction ss with
  | nil => simp [countAll]
  | cons s ss ih => simp [countAll, ih, Nat.add_assoc]

/-- All symbols of a forest, each before the ones below it. The ones below the symbol at hand are
put in front of those that wait. -/
def flatten : List Symbol → List Symbol
  | [] => []
  | s :: waiting => s :: flatten (s.children ++ waiting)
termination_by waiting => countAll waiting
decreasing_by
  rw [countAll_append, countAll, count_eq]
  omega

/-- The short form `kind name selection`. -/
def brief (s : Symbol) : String := s.kind.name ++ " " ++ s.name ++ " " ++ s.selection.render

end Symbol

end FishNav
