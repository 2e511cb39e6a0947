import FishNav.File.Uri
import FishNav.Role

/-!
# Files behind commands

A command that a document does not define may be defined in a file of its own, `name.fish`, in one
of the directories of the search path; `source` and `.` name their file. If no directory has the
file, it is taken to be next to the document.
-/
namespace FishNav.SearchPath

def extension : List Char := ['.', 'f', 'i', 's', 'h']

def isSourcing (name : String) : Bool := name == "source" || name == "."

def isQuote (c : Char) : Bool := c == '"' || c == '\''

/-- The command that a node is, or whose child it is. -/
def commandOf? (n : Node) : Option Node := if n.isCommand then some n else n.parent?.filter Node.isCommand

/-- The name of the file that a node refers to, as the script has it. -/
def target? (n : Node) : Option String :=
  match commandOf? n with
  | none => some n.text
  | some command =>
    match command.child? 0 with
    | none => some n.text
    | some name =>
      if isSourcing name.text then
        (command.child? 1).map fun file => String.ofList (file.text.toList.filter (!isQuote ·))
      else if command.same n then some name.text
      else some n.text

def withExtension (name : String) : String :=
  if (Text.after? extension.reverse name.toList.reverse).isSome then name
  else name ++ String.ofList extension

/-- The places where a file may be, one for each directory. -/
def candidates (directories : List String) (name : String) : List String :=
  directories.map fun d => Path.join d (withExtension name)

/-- The file that a node of the document `base` refers to. -/
def resolve (directories : List String) (isFile : String → Bool) (n : Node) (base : String) :
    Option String :=
  (target? n).map fun name =>
    match (candidates directories name).find? isFile with
    | some found => found
    | none => Path.join ((Path.parent? (Uri.toPath base)).getD ".") (withExtension name)

def expandHome (home? : Option String) (directory : String) : String :=
  match Text.after? ['~', '/'] directory.toList, home? with
  | some rest, some home => Path.join home (String.ofList rest)
  | _, _ => directory

def splitList (list : String) : List String := (Text.split ':' list.toList).map String.ofList

/-- The directories to search: the given ones, and then, if asked for, those of the list `path?`. -/
def directories (given : List String) (includeList : Bool) (home? path? : Option String) :
    List String :=
  given.map (expandHome home?) ++ if includeList then (path?.map splitList).getD [] else []

end FishNav.SearchPath
