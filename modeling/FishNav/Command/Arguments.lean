import FishNav.Symbol.Basic

/-!
# The command line

Commands and their options. An option's value is the next argument or stands behind an equals sign;
the value of a short option may follow it directly. Options may come in any order, none of them
twice, and behind `--` every argument is an operand. Arguments are looked at from left to right, and
the first one that makes no sense, or that asks for help or the version, decides. Of the help there
is only one short text for all commands; what was wrong with an argument is not said.
-/
namespace FishNav.CommandLine

inductive Question where
  | definition
  | references
  | nearby
  | kind
  deriving DecidableEq, Repr

inductive Request where
  | symbols (file : String) (path? : Option String) (kind? : Option SymbolKind) (flat : Bool)
  | ask (question : Question) (location : String) (path? : Option String)
  | initSettings (isGlobal force : Bool)
  | showSettings (isGlobal : Bool)
  | settingsPath (isGlobal : Bool)
  deriving Repr

/-- What is asked for, and whether the answer should be printed with line breaks. -/
structure Invocation where
  pretty : Bool
  request : Request
  deriving Repr

/-- Why there is no request to carry out. -/
inductive Stop where
  /-- The arguments make no sense. -/
  | misuse
  | help
  /-- The version is asked for; commands have a name of their own. -/
  | version (program : String)
  deriving DecidableEq, Repr

/-- A kind of option, by name and, for some, by letter. -/
structure Flag where
  name : String
  letter : Option Char := none

/-- A kind of option with a value, and the values it takes. -/
structure Parameter extends Flag where
  accepts : String → Bool

/-- The arguments that a command knows. -/
structure Level where
  program : String
  /-- The commands below this one. -/
  commands : List String := []
  flags : List Flag := []
  parameters : List Parameter := []
  /-- The most operands there may be. -/
  operands : Nat := 0
  acceptsOperand : String → Bool := fun _ => true

/-- The arguments of a command, taken apart. -/
structure Scan where
  flags : List String := []
  values : List (String × String) := []
  operands : List String := []
  /-- A command among the arguments, and the arguments behind it. -/
  command : Option (String × List String) := none

namespace Scan

def addFlag (s : Scan) (name : String) : Except Stop Scan :=
  if s.flags.contains name then .error .misuse else .ok { s with flags := name :: s.flags }

def addValue (s : Scan) (parameter : Parameter) (value : String) : Except Stop Scan :=
  if s.values.any (·.1 == parameter.name) || !parameter.accepts value then .error .misuse
  else .ok { s with values := (parameter.name, value) :: s.values }

def value? (s : Scan) (name : String) : Option String :=
  (s.values.find? (·.1 == name)).map (·.2)

end Scan

namespace Level

def allFlags (l : Level) : List Flag := { name := "pretty" } :: l.flags

/-- Takes in `--name` or `--name=value`. A parameter that still lacks its value comes back too. -/
def long (l : Level) (s : Scan) (text : List Char) : Except Stop (Scan × Option Parameter) := do
  let name := String.ofList (text.takeWhile (· != '='))
  let parameter? := l.parameters.find? (·.name == name)
  match text.dropWhile (· != '='), parameter? with
  | [], some parameter => return (s, some parameter)
  | [], none =>
    if name == "help" then .error .help
    else if name == "version" then .error (.version l.program)
    else if l.allFlags.any (·.name == name) then return (← s.addFlag name, none)
    else .error .misuse
  | _ :: value, some parameter => return (← s.addValue parameter (String.ofList value), none)
  | _ :: _, none => .error .misuse

/-- Takes in letters behind a single dash. -/
def short (l : Level) (s : Scan) : List Char → Except Stop (Scan × Option Parameter)
  | [] => .ok (s, none)
  | c :: cs => do
    if c == 'h' then .error .help
    else if c == 'V' then .error (.version l.program)
    else
      match l.allFlags.find? (·.letter == some c), l.parameters.find? (·.letter == some c) with
      | some flag, _ => l.short (← s.addFlag flag.name) cs
      | none, none => .error .misuse
      | none, some parameter =>
        match cs with
        | [] => return (s, some parameter)
        | '=' :: value => return (← s.addValue parameter (String.ofList value), none)
        | value => return (← s.addValue parameter (String.ofList value), none)

def operand (l : Level) (s : Scan) (arg : String) : Except Stop Scan :=
  if s.operands.length < l.operands && l.acceptsOperand arg then
    .ok { s with operands := s.operands ++ [arg] }
  else .error .misuse

/-- Takes the arguments of a command apart, up to the name of a command below it. `waiting` is a
parameter whose value comes next. -/
def scan (l : Level) (s : Scan) (waiting : Option Parameter) : List String → Except Stop Scan
  | [] => if waiting.isSome then .error .misuse else .ok s
  | arg :: args =>
    match waiting, arg.toList with
    | none, ['-', '-'] => args.foldlM l.operand s
    | none, '-' :: '-' :: text => do
      let (s, waiting) ← l.long s text
      l.scan s waiting args
    | none, '-' :: c :: text => do
      let (s, waiting) ← l.short s (c :: text)
      l.scan s waiting args
    | none, _ =>
      if l.commands.contains arg then .ok { s with command := some (arg, args) }
      else do l.scan (← l.operand s arg) none args
    | some _, '-' :: _ :: _ => .error .misuse
    | some parameter, _ => do l.scan (← s.addValue parameter arg) none args

end Level

/-! ### Commands -/

/-- The command below a command with others below it that explains them. -/
def helpWord : String := "help"

def configCommands : List String := ["init", "show", "path", helpWord]

def topCommands : List String := ["symbols", "def", "refs", "nearby", "kind", "config", helpWord]

/-- Paths are not empty. -/
def isPath (text : String) : Bool := !text.isEmpty

def pathParameter : Parameter := { name := "path", accepts := isPath }

def kindParameter : Parameter :=
  { name := "kind", letter := some 'k', accepts := fun word => (SymbolKind.ofWord? word).isSome }

def top : Level :=
  { program := "fishscope"
    commands := topCommands }

def symbolsLevel : Level :=
  { program := "fishscope-symbols"
    flags := [{ name := "flat" }]
    parameters := [pathParameter, kindParameter]
    operands := 1
    acceptsOperand := isPath }

def askLevel (name : String) : Level :=
  { program := "fishscope-" ++ name
    parameters := [pathParameter]
    operands := 1 }

def configLevel : Level :=
  { program := "fishscope-config"
    commands := configCommands }

def configCommandLevel (name : String) : Level :=
  { program := "fishscope-config-" ++ name
    flags := { name := "global" } ::
      if name == "init" then [{ name := "force", letter := some 'f' }] else [] }

def symbolsRequest (s : Scan) : Except Stop Request :=
  match s.operands with
  | [file] =>
    .ok (.symbols file (s.value? "path") ((s.value? "kind").bind SymbolKind.ofWord?)
      (s.flags.contains "flat"))
  | _ => .error .misuse

def askRequest (question : Question) (s : Scan) : Except Stop Request :=
  match s.operands with
  | [location] => .ok (.ask question location (s.value? "path"))
  | _ => .error .misuse

def question? : String → Option Question
  | "def" => some .definition
  | "refs" => some .references
  | "nearby" => some .nearby
  | "kind" => some .kind
  | _ => none

def isPretty (s : Scan) : Bool := s.flags.contains "pretty"

/-- Help on the command that the arguments behind `help` name. -/
def helpOn (commands : List String) : List String → Stop
  | [] => .help
  | [name] => if commands.contains name then .help else .misuse
  | [outer, inner] =>
    if commands.contains "config" && outer == "config" && configCommands.contains inner then .help
    else .misuse
  | _ => .misuse

def configInvocation (args : List String) : Except Stop Invocation := do
  let s ← configLevel.scan {} none args
  match s.command with
  | none => .error .misuse
  | some (name, args) =>
    if name == helpWord then .error (helpOn configCommands args)
    else
      let s' ← (configCommandLevel name).scan {} none args
      let isGlobal := s'.flags.contains "global"
      let request :=
        if name == "init" then .initSettings isGlobal (s'.flags.contains "force")
        else if name == "show" then .showSettings isGlobal
        else .settingsPath isGlobal
      return ⟨isPretty s || isPretty s', request⟩

def parse (args : List String) : Except Stop Invocation := do
  let s ← top.scan {} none args
  match s.command with
  | none => .error .misuse
  | some (name, args) =>
    if name == helpWord then .error (helpOn topCommands args)
    else if name == "config" then
      let inner ← configInvocation args
      return { inner with pretty := inner.pretty || isPretty s }
    else
      match question? name with
      | some question =>
        let s' ← (askLevel name).scan {} none args
        return ⟨isPretty s || isPretty s', ← askRequest question s'⟩
      | none =>
        let s' ← symbolsLevel.scan {} none args
        return ⟨isPretty s || isPretty s', ← symbolsRequest s'⟩

def versionText (program : String) : String := program ++ " 0.1.0"

def usageText : String :=
  "usage: fishscope [--pretty] COMMAND\n" ++
  "  symbols FILE [--path PATH] [--kind KIND] [--flat]\n" ++
  "  def|refs|nearby|kind FILE:LINE[:COLUMN] [--path PATH]\n" ++
  "  config init [--global] [--force]\n" ++
  "  config show|path [--global]\n"

end FishNav.CommandLine
