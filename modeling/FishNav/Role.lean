import FishNav.Tree.Node

/-!
# What a node does

Which nodes are names of functions and of commands, which ones bring in a variable, and the
function or program in which a name lives.

Variables come from four places: the name behind `for`, the first argument of `set` that is no
option (unless an option says that nothing is set), the arguments of `read` that are neither
options nor values of options, and the names behind `--argument-names` in the head of a function.
-/
namespace FishNav.Node

def isProgram (n : Node) : Bool := n.kind == .program

def isFunctionDefinition (n : Node) : Bool := n.kind == .functionDefinition

def isForLoop (n : Node) : Bool := n.kind == .forStatement

def isCommand (n : Node) : Bool := n.kind == .command

/-- Whether `n` is the first named child of a node of this kind. -/
def isNameOf (kind : Kind) (n : Node) : Bool :=
  match n.parent? with
  | none => false
  | some p => p.kind == kind && p.firstNamedChild?.any (·.same n)

def isFunctionName (n : Node) : Bool := n.isNameOf .functionDefinition

def isCommandName (n : Node) : Bool := n.isNameOf .command

/-! ### Variables -/

def isOption (n : Node) : Bool := n.text.toList.head? == some '-'

/-- Options of `set` under which it sets nothing. -/
def queryOptions : List String :=
  ["-q", "--query", "-e", "--erase", "-S", "--show", "-n", "--names"]

/-- Options of `read` that take the next argument as their value. -/
def valueOptions : List String :=
  ["-p", "--prompt", "-P", "--prompt-str", "-R", "--right-prompt", "-c", "--command",
    "-d", "--delimiter", "-n", "--nchars"]

/-- Options of `function` that name its arguments. -/
def argumentOptions : List String := ["-a", "--argument-names"]

/-- The argument that `set` sets: the first one that is no option, unless an option before it says
that nothing is set. -/
def setTarget? : List Node → Option Node
  | [] => none
  | a :: rest =>
    if a.isOption then if queryOptions.contains a.text then none else setTarget? rest
    else some a

/-- Whether `read` reads into `n`, found out by going over its arguments up to `n`. An argument is
passed over if it is an option, and if `skip` says that the option before it takes a value. -/
def isReadTarget (n : Node) (skip : Bool) : List Node → Bool
  | [] => false
  | a :: rest =>
    if skip then
      if a.same n then false else isReadTarget n false rest
    else if a.isOption then
      if a.same n then false else isReadTarget n (valueOptions.contains a.text) rest
    else if a.same n then true
    else isReadTarget n false rest

/-- Whether `n` names an argument in the head of a function, found out by going over the leading
words up to `n`. `collecting` says that the last option was `-a` or `--argument-names`. -/
def isArgumentName (n : Node) (collecting : Bool) : List Node → Bool
  | [] => false
  | a :: rest =>
    if a.kind != .word then false
    else if a.isOption then isArgumentName n (argumentOptions.contains a.text) rest
    else if a.same n then collecting
    else isArgumentName n collecting rest

/-- Whether a command sets `n`, one of its named children. -/
def isSetBy (n command : Node) : Bool :=
  match command.namedChildren with
  | [] => false
  | name :: args =>
    if name.same n then false
    else if name.text == "set" then (setTarget? args).any (·.same n)
    else if name.text == "read" then isReadTarget n false args
    else false

/-- Whether `n` brings in a variable. -/
def isVariableDefinition (n : Node) : Bool :=
  match n.parent? with
  | none => false
  | some p =>
    match n.kind, p.kind with
    | .variableName, .forStatement => true
    | .word, .command => n.isSetBy p
    | .word, .functionDefinition => isArgumentName n false (p.namedChildren.drop 1)
    | _, _ => false

def isVariable (n : Node) : Bool := n.kind == .variableName || n.isVariableDefinition

/-! ### Scopes -/

/-- A function or the program. -/
def bounds (n : Node) : Bool := n.isFunctionDefinition || n.isProgram

/-- The function or program in which a name lives. The name of a function lives outside of it. -/
def definitionScope? (n : Node) : Option Node :=
  if n.isFunctionName then n.parent?.bind (findAbove? bounds) else n.findAbove? bounds

/-- The command that `n` is or is part of. -/
def enclosingCommand? (n : Node) : Option Node := (n :: n.ancestors).find? isCommand

end FishNav.Node
