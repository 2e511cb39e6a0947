import FishNav.Scope

/-!
# Definitions and references

To which definition a node of a document refers, which other nodes refer to it too, and whether the
definition is in the document, in another file, or nowhere.
-/
namespace FishNav

/-- Where the definition of a name is to be found. -/
inductive Origin where
  | document
  | file
  | nowhere
  deriving DecidableEq, Repr

namespace Origin

def name : Origin → String
  | document => "local"
  | file => "file"
  | nowhere => "none"

end Origin

namespace Definition

/-- The name under which a function sees its arguments. -/
def argumentsName : String := "argv"

/-- The kind of symbol that a node can refer to; `none` if any will do. -/
def expectedKind? (n : Node) : Option SymbolKind :=
  if n.isCommandName || n.isFunctionName then some .function
  else if n.kind == .variableName then some .var
  else none

def enclosingFunction? (root n : Node) : Option Symbol := do
  let function ← n.findAbove? Node.isFunctionDefinition
  let name ← function.firstNamedChild?
  let symbol ← (Symbol.flatten root.symbols).find? fun s =>
    s.isFunction && s.selection == name.range
  return symbol.leaf

/-- The symbol whose selection starts last; of several, the last one in the list. -/
def latest? : List Symbol → Option Symbol
  | [] => none
  | s :: ss =>
    match latest? ss with
    | none => some s
    | some t => if s.selection.start ≤ t.selection.start then some t else some s

/-- The definition that a node refers to. The arguments of a function belong to the innermost
function around; a name that is being defined refers to itself; otherwise the latest definition
before the node that can be seen from it counts, and for all but variables failing that the first
function of the name in the document. -/
def find? (root n : Node) : Option Symbol :=
  if n.text = argumentsName then enclosingFunction? root n
  else
    let flat := Symbol.flatten root.symbols
    match flat.find? fun s => s.selection == n.range && s.name == n.text with
    | some own => some own.leaf
    | none =>
      let expected := expectedKind? n
      let candidates := (Scope.visible root n).filter fun s =>
        s.name == n.text && expected.all (s.kind == ·) && s.selection.precedes n.range
      match latest? candidates with
      | some found => some found
      | none =>
        if expected = some .var then none
        else (flat.find? fun s => s.isFunction && s.name == n.text).map Symbol.leaf

def locations (uri : String) (root n : Node) : List Location :=
  (find? root n).toList.map fun s => ⟨uri, s.selection⟩

/-! ### References -/

/-- The order of the text: by start, then by end. -/
def inTextOrder (m n : Node) : Bool :=
  m.start < n.start || (m.start == n.start && m.stop ≤ n.stop)

/-- The nodes of a document that satisfy `p`, as locations in the order of the text. -/
def locationsWhere (uri : String) (root : Node) (p : Node → Bool) : List Location :=
  ((root.breadthFirst.filter p).mergeSort inTextOrder).map fun n => ⟨uri, n.range⟩

/-- Whether two nodes that may be missing are the same node, or both are missing. -/
def sameScope : Option Node → Option Node → Bool
  | none, none => true
  | some m, some n => m.same n
  | _, _ => false

/-- The uses of the arguments of the innermost function around a node. -/
def argumentReferences (uri : String) (root n : Node) : List Location :=
  match n.findAbove? Node.isFunctionDefinition with
  | none => []
  | some function =>
    locationsWhere uri root fun m =>
      m.kind == .variableName && m.text == argumentsName &&
        sameScope m.definitionScope? (some function)

/-- All nodes that refer to the definition that `n` refers to. Variables are looked for in the
scope of their definition, functions in the whole document. -/
def references (uri : String) (root n : Node) : List Location :=
  if n.text = argumentsName then argumentReferences uri root n
  else
    match find? root n with
    | none => []
    | some definition =>
      match definition.node? root with
      | none => []
      | some name =>
        locationsWhere uri root fun m =>
          m.text == definition.name &&
            match definition.kind with
            | .function => m.isCommandName || m.isFunctionName
            | .var => m.isVariable && sameScope m.definitionScope? name.definitionScope?

/-- Where the definition of a node is, and the locations `known` so far with those of the node
added. Builtins are defined nowhere; a command that the document does not define may be in a
file. -/
def origin (isBuiltin : String → Bool) (uri : String) (root n : Node) (known : List Location) :
    Origin × List Location :=
  if isBuiltin n.text then (.nowhere, known)
  else
    let found := known ++ locations uri root n
    if !found.isEmpty then (.document, found)
    else if n.isCommandName then (.file, found)
    else (.nowhere, found)

end Definition

end FishNav
