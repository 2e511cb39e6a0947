import FishNav.Definition
import FishNav.File.SearchPath

/-!
# Asking about documents

The questions an editor asks, by document and cursor: where a name is defined, where it is used,
what could be written here. Documents that are not there and positions outside of them have empty
answers. Documents are kept in no order that an answer shows.
-/
namespace FishNav

/-- Documents by URI. -/
structure Documents where
  entries : List (String × Tree)
  /-- Each URI comes once. -/
  distinct : (entries.map Prod.fst).Nodup

namespace Documents

def empty : Documents := ⟨[], List.nodup_nil⟩

def get? (d : Documents) (uri : String) : Option Tree :=
  (d.entries.find? (·.1 == uri)).map (·.2)

def contains (d : Documents) (uri : String) : Bool := (d.get? uri).isSome

def size (d : Documents) : Nat := d.entries.length

theorem nodup_filter (d : Documents) (p : String × Tree → Bool) :
    ((d.entries.filter p).map Prod.fst).Nodup :=
  d.distinct.sublist (List.filter_sublist.map Prod.fst)

def erase (d : Documents) (uri : String) : Documents :=
  ⟨d.entries.filter (·.1 != uri), d.nodup_filter _⟩

theorem not_mem_erase (d : Documents) (uri : String) :
    uri ∉ (d.erase uri).entries.map Prod.fst := by
  simp [erase]

/-- Puts a document in the place of the one with its URI. -/
def insert (d : Documents) (uri : String) (tree : Tree) : Documents :=
  ⟨(uri, tree) :: (d.erase uri).entries,
    List.nodup_cons.mpr ⟨d.not_mem_erase uri, (d.erase uri).distinct⟩⟩

def root? (d : Documents) (uri : String) : Option Node := (d.get? uri).bind Tree.root?

def text? (d : Documents) (uri : String) (range : Range) : Option String :=
  (d.get? uri).bind fun t => (Text.inRange? t.source.toList range).map String.ofList

end Documents

/-- What is needed to answer: the documents, which names are builtins, how to find the file behind
a node of a document, and the directory from which relative paths are seen. -/
structure Navigator where
  documents : Documents
  isBuiltin : String → Bool
  fileOf? : Node → String → Option String
  cwd : String

namespace Navigator

def nameOfExpansion? (n : Node) : Option Node :=
  n.namedChildren.find? (·.kind == .variableName)

/-- The expansion that a node is or whose dollar sign it is. -/
def expansionOf? (n : Node) : Option Node :=
  if n.kind == .variableExpansion then some n
  else if n.kind == .anonymous && n.text == "$" then
    n.parent?.filter (·.kind == .variableExpansion)
  else none

/-- The node that a cursor means. On an expansion or its dollar sign this is the name in it. -/
def nodeAt? (root : Node) (source : List Char) (p : Position) : Option Node :=
  (root.atCursor? source p).map fun n =>
    ((expansionOf? n).bind nameOfExpansion?).getD n

/-- The root of a document and the node that a cursor in it means. -/
def locate? (v : Navigator) (uri : String) (p : Position) : Option (Node × Node) := do
  let tree ← v.documents.get? uri
  let root ← tree.root?
  let n ← nodeAt? root tree.source.toList p
  return (root, n)

def isSourceArgument (n : Node) : Bool :=
  match n.parent? with
  | none => false
  | some p =>
    p.isCommand && (p.child? 0).any fun name => !name.same n && SearchPath.isSourcing name.text

def fileLocation? (v : Navigator) (uri : String) (n : Node) : Option Location :=
  (v.fileOf? n uri).map fun path => ⟨Uri.ofPath v.cwd path, .point .origin⟩

def symbols (v : Navigator) (uri : String) : List Symbol :=
  ((v.documents.root? uri).map Node.symbols).getD []

/-- Where the name at a cursor is defined. -/
def definitions (v : Navigator) (uri : String) (p : Position) : List Location :=
  match v.locate? uri p with
  | none => []
  | some (root, n) =>
    if isSourceArgument n then (v.fileLocation? uri n).toList
    else
      match Definition.origin v.isBuiltin uri root n [] with
      | (.document, found) => found
      | (.file, _) => (v.fileLocation? uri n).toList
      | (.nowhere, _) => []

/-- Whether the name at a cursor is defined in the document, in a file, or nowhere. -/
def origin (v : Navigator) (uri : String) (p : Position) : Origin :=
  match v.locate? uri p with
  | none => .nowhere
  | some (root, n) => (Definition.origin v.isBuiltin uri root n []).1

/-- Where the definition of the name at a cursor is used, the definition included. -/
def references (v : Navigator) (uri : String) (p : Position) : List Location :=
  match v.locate? uri p with
  | none => []
  | some (root, n) => Definition.references uri root n

/-- What may be meant at a cursor. -/
def completions (v : Navigator) (uri : String) (p : Position) : List Symbol :=
  ((v.documents.root? uri).map fun root => Scope.nearby root (.point p)).getD []

def text? (v : Navigator) (l : Location) : Option String := v.documents.text? l.uri l.range

end Navigator

end FishNav
