import FishNav.Text.Mark

/-!
# Tree dumps

The form in which trees are exchanged: the text, and nested nodes that carry their tag, whether
they are named, their span and their children. Nothing about a dump has been checked yet.
-/
namespace FishNav

structure Dump where
  tag : String
  named : Bool
  span : Span
  children : List Dump
  deriving Repr

structure TreeDump where
  source : String
  root : Dump
  deriving Repr

end FishNav
