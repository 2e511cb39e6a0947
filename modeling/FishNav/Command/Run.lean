import FishNav.Builtin
import FishNav.Command.Arguments
import FishNav.Command.Location
import FishNav.Command.Report
import FishNav.Navigator
import FishNav.Settings.Service
import FishNav.Tree.Load

/-!
# Carrying out commands

A command reads the dump of a script's tree, answers a question about it and prints the answer, or
looks after the settings files. An answer with a coordinate that cannot be counted from one is not
given: the program stops there and prints nothing. Logs are left out, and stacks have no end.
-/
namespace FishNav.CommandLine

/-- What is left of a run: the exit code, what was printed, and what was said to the side. -/
structure Outcome where
  exit : Nat
  output : String
  notice : String := ""
  deriving DecidableEq, Repr

/-- What commands need to know: the working directory, the environment, the settings in force, and
whether to print with line breaks. -/
structure Context where
  cwd : String
  env : Environment
  settings : Settings
  pretty : Bool

namespace Context

def files (c : Context) : SettingsFiles := .ofEnvironment c.cwd c.env

def directories (c : Context) : List String :=
  SearchPath.directories c.settings.search.functionPaths c.settings.search.includeEnvPath
    c.env.home? (c.env.get? "PATH")

def print (c : Context) (v : Json) : Outcome := { exit := 0, output := Report.print c.pretty v }

end Context

def failed (message : String) : Outcome :=
  { exit := 2, output := Report.print true (Report.failure message) }

/-- The outcome of a run that came upon an overflow. Nothing is printed. -/
def stopped : Outcome := { exit := 101, output := "", notice := "attempt to add with overflow" }

/-- Prints an answer, if it can be printed. -/
def Context.reply (c : Context) : Option Json → Outcome
  | some data => c.print (Report.success data)
  | none => stopped

structure Opened where
  uri : String
  /-- The path to print. -/
  file : String
  tree : Tree

def loadMessage : LoadError → String
  | .notADump => "not a tree dump"
  | .fault fault => fault.message ++ ": " ++ fault.message

/-- Opens a tree dump. `path?` is the script that the tree was read from. -/
def openDump (c : Context) (dumpPath : String) (path? : Option String) :
    FileTask (Except String Opened) := do
  match ← .read dumpPath .done with
  | .error e => return .error ("Failed to read tree: " ++ dumpPath ++ ": " ++ e.message)
  | .ok content =>
    match Tree.ofJson content with
    | .error e => return .error ("Invalid tree: " ++ dumpPath ++ ": " ++ loadMessage e)
    | .ok tree =>
      let path := path?.getD dumpPath
      return .ok
        { uri := Uri.ofPath c.cwd path
          file := Path.relativeTo c.cwd (Path.join c.cwd path)
          tree }

/-- The symbols to list: with a kind or when flat, all symbols of the kind; flat ones without the
symbols below them. -/
def listed (kind? : Option SymbolKind) (flat : Bool) (outline : List Symbol) : List Symbol :=
  if flat || kind?.isSome then
    ((Symbol.flatten outline).filter fun s => kind?.all (s.kind == ·)).map fun s =>
      if flat then s.leaf else s
  else outline

/-- Asks the disk which of the files are there that the node at a position may refer to, and makes
a navigator that knows them. -/
def navigatorFor (c : Context) (opened : Opened) (p : Position) : FileTask Navigator := do
  let documents := Documents.empty.insert opened.uri opened.tree
  let name? := do
    let root ← opened.tree.root?
    let n ← Navigator.nodeAt? root opened.tree.source.toList p
    SearchPath.target? n
  let candidates := (name?.map (SearchPath.candidates c.directories)).getD []
  let known ← candidates.filterM fun path => .isFile path .done
  return {
    documents
    isBuiltin := Builtin.isBuiltin c.settings.extraBuiltins
    fileOf? := SearchPath.resolve c.directories known.contains
    cwd := c.cwd }

def reportLocation? (c : Context) (v : Navigator) (l : Location) : Option Json :=
  Report.location? c.cwd l (v.text? l)

def definitionMessage? (origin : Origin) (found : Bool) : Option String :=
  if origin = .nowhere then some "No definition (builtin or unresolved name)"
  else if found then none
  else some "Definition not found"

/-- The answer to a question about a position. -/
def answer? (c : Context) (v : Navigator) (opened : Opened) (p : Position) :
    Question → Option Json
  | .definition => do
    let origin := v.origin opened.uri p
    let places ← (v.definitions opened.uri p).head?.toList.mapM (reportLocation? c v)
    return .obj <|
      places.map (("definition", ·)) ++
      [("kind", .str origin.name)] ++
      ((definitionMessage? origin !places.isEmpty).map fun m => ("message", .str m)).toList
  | .references => do
    let places ← (v.references opened.uri p).mapM (reportLocation? c v)
    return .obj [("count", .nat places.length), ("references", .arr places)]
  | .nearby => Report.symbolList? opened.file (v.completions opened.uri p)
  | .kind =>
    let name? := (v.references opened.uri p).head?.bind v.text?
    some <| .obj <|
      [("kind", .str (v.origin opened.uri p).name)] ++
      (name?.map fun name => ("name", .str name)).toList

def locate (c : Context) (location : String) : FileTask (Except String FilePosition) :=
  match FilePosition.parse location with
  | .error e => .done (.error e.message)
  | .ok l =>
    let path := Path.join c.cwd l.file
    .canonical path fun
      | none => .done (.error ("File not found: " ++ path))
      | some file => .done (.ok { l with file })

/-- Carries out a question about a location. -/
def ask (c : Context) (question : Question) (location : String) (path? : Option String) :
    FileTask Outcome := do
  match ← locate c location with
  | .error message => return failed message
  | .ok l =>
    match ← openDump c l.file path? with
    | .error message => return failed message
    | .ok opened =>
      match l.check opened.tree.source.toList with
      | .error e => return failed e.message
      | .ok () =>
        let v ← navigatorFor c opened l.position
        return c.reply (answer? c v opened l.position question)

def levelName (isGlobal : Bool) (other : String) : Json :=
  .str (if isGlobal then "global" else other)

def carryOut (c : Context) : Request → FileTask Outcome
  | .symbols file path? kind? flat => do
    match ← openDump c file path? with
    | .error message => return failed message
    | .ok opened =>
      let outline := (opened.tree.root?.map Node.symbols).getD []
      return c.reply (Report.symbolList? opened.file (listed kind? flat outline))
  | .ask question location path? => ask c question location path?
  | .initSettings isGlobal force => do
    match ← Settings.init c.files isGlobal force with
    | .error e => return c.print (Report.failure e.message)
    | .ok path =>
      return c.print <| .obj
        [("level", levelName isGlobal "project"), ("path", .str (Path.relativeTo c.cwd path)),
          ("status", .str "created"), ("success", .bool true)]
  | .showSettings isGlobal => do
    match ← Settings.load c.files c.env isGlobal with
    | .error e => return c.print (Report.failure e.message)
    | .ok settings =>
      return c.print <| .obj
        [("config", settings.toJson), ("level", levelName isGlobal "merged"),
          ("success", .bool true)]
  | .settingsPath isGlobal =>
    let path := c.files.path isGlobal
    .isThere path fun there =>
      .done <| c.print <| .obj
        [("exists", .bool there), ("level", levelName isGlobal "project"),
          ("path", .str (Path.relativeTo c.cwd path)), ("success", .bool true)]

/-- Runs the program. Settings that cannot be loaded are left aside. -/
def run (cwd : String) (env : Environment) (args : List String) : FileTask Outcome :=
  match parse args with
  | .error .misuse => .done { exit := 2, output := "", notice := usageText }
  | .error .help => .done { exit := 0, output := "", notice := usageText }
  | .error (.version program) => .done { exit := 0, output := versionText program ++ "\n" }
  | .ok ⟨pretty, request⟩ => do
    let settings := match ← Settings.load (.ofEnvironment cwd env) env false with
      | .ok settings => settings
      | .error _ => {}
    carryOut { cwd, env, settings, pretty := pretty || settings.pretty } request

end FishNav.CommandLine
