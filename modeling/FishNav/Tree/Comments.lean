import FishNav.Text.Blank
import FishNav.Tree.Node

/-!
# Comments above a node

The comments directly above a node are the named siblings before it up to the first one that is no
comment; keywords and punctuation between them do not count. Their texts describe the node, and
the node's range can be widened to take them in.
-/
namespace FishNav.Node

def isComment (n : Node) : Bool := n.kind == .comment

/-- The comments directly above `n`, nearest first. -/
def commentRun (n : Node) : List Node := (n.before.filter isNamed).takeWhile isComment

/-- The text of a comment without its hash signs and without one blank behind them. -/
def stripComment (text : String) : String :=
  match text.toList.dropWhile (· == '#') with
  | [] => ""
  | c :: cs => String.ofList (if Text.isBlank c then cs else c :: cs)

/-- The texts of the comments directly above `n`, in the order of the text, one a line. -/
def comments (n : Node) : String :=
  "\n".intercalate (n.commentRun.reverse.map fun c => stripComment c.text)

/-- The range of `n`, from the first of the comments directly above it on. -/
def commentedRange (n : Node) : Range :=
  match n.commentRun.getLast? with
  | none => n.range
  | some first => ⟨first.start, n.stop⟩

end FishNav.Node
