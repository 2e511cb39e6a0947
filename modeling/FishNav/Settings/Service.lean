import FishNav.File.Disk
import FishNav.File.SearchPath
import FishNav.Settings.Basic
import FishNav.Text.Blank

/-!
# Where settings come from

A file for the user, the global one, and a file for the project, which is laid over it; then
variables of the environment, which win over both. New files are never written over old ones unless
that is asked for. What the system has on record of a user comes in as part of the environment. Of a
file that holds no settings only the path is told.
-/
namespace FishNav

/-- The variables of the environment, and the user's own directory as the system has it on
record. -/
structure Environment where
  entries : List (String × String)
  recordedHome? : Option String

namespace Environment

def get? (env : Environment) (name : String) : Option String :=
  (env.entries.find? (·.1 == name)).map (·.2)

/-- The user's own directory: `HOME`, or what is on record if that is not set or empty. -/
def home? (env : Environment) : Option String :=
  ((env.get? "HOME").filter (!·.isEmpty)).or env.recordedHome?

end Environment

inductive SettingsError where
  /-- The file at a path does not hold settings. -/
  | unreadable (path : String)
  | invalid (key message : String)
  | os (e : OsError)
  deriving DecidableEq, Repr

namespace SettingsError

def message : SettingsError → String
  | unreadable path => "Config parse error: " ++ path ++ ": not a settings file"
  | invalid key message => "Invalid value for '" ++ key ++ "': " ++ message
  | os e => e.message

end SettingsError

/-- The places of the two settings files. -/
structure SettingsFiles where
  project : String
  «global» : String
  deriving Repr

namespace SettingsFiles

def configHome (env : Environment) : String :=
  match env.get? "XDG_CONFIG_HOME" with
  | some directory => directory
  | none => (env.home?.map (Path.join · ".config")).getD "."

/-- The files of a project in the directory `root`, with the user's file where `env` has it. -/
def ofEnvironment (root : String) (env : Environment) : SettingsFiles :=
  ⟨Path.join (Path.join root ".fishscope") "config.toml",
    Path.join (Path.join (configHome env) "fishscope") "config.toml"⟩

def path (files : SettingsFiles) (isGlobal : Bool) : String :=
  if isGlobal then files.global else files.project

end SettingsFiles

namespace Settings

/-! ### Environment -/

/-- The truth value that a text names, in any mix of letter case. -/
def truth? (text : String) : Option Bool :=
  let lower := String.ofList (text.toList.map Char.toLower)
  if ["1", "true", "yes", "on"].contains lower then some true
  else if ["0", "false", "no", "off"].contains lower then some false
  else none

def flag? (env : Environment) (key : String) : Except SettingsError (Option Bool) :=
  match env.get? key with
  | none => .ok none
  | some text =>
    match truth? text with
    | some b => .ok (some b)
    | none => .error (.invalid key ("expected a boolean, got '" ++ text ++ "'"))

def namesOfList (list : String) : List String :=
  ((Text.split ',' list.toList).map Text.trim).filterMap fun name =>
    if name.isEmpty then none else some (String.ofList name)

/-- The settings with those of the environment laid over them. -/
def withEnvironment (s : Settings) (env : Environment) : Except SettingsError Settings := do
  let pretty ← flag? env "FISHSCOPE_OUTPUT_PRETTY"
  let includeEnvPath ← flag? env "FISHSCOPE_INCLUDE_ENV_PATH"
  let functionPaths := (env.get? "FISHSCOPE_FUNCTION_PATHS").map SearchPath.splitList
  let extraBuiltins := (env.get? "FISHSCOPE_EXTRA_BUILTINS").map namesOfList
  return {
    extraBuiltins := extraBuiltins.getD s.extraBuiltins
    search :=
      { functionPaths := functionPaths.getD s.search.functionPaths
        includeEnvPath := includeEnvPath.getD s.search.includeEnvPath }
    pretty := pretty.getD s.pretty }

/-! ### Files -/

/-- The settings of a file, if there is one. -/
def loadFile (path : String) : FileTask (Except SettingsError (Option Settings)) :=
  .isThere path fun there =>
    if there then
      .read path fun
        | .error e => .done (.error (.os e))
        | .ok text =>
          match ofToml? text with
          | none => .done (.error (.unreadable path))
          | some s => .done (.ok (some s))
    else .done (.ok none)

/-- The settings of two files, either of which may be missing. -/
def layered : Option Settings → Option Settings → Settings
  | some base, some upper => base.overlay upper
  | base, upper => (upper.orElse fun _ => base).getD {}

/-- The settings in force; with `globalOnly`, those of the user's file alone. -/
def load (files : SettingsFiles) (env : Environment) (globalOnly : Bool) :
    FileTask (Except SettingsError Settings) := do
  match ← loadFile files.global with
  | .error e => return .error e
  | .ok base =>
    if globalOnly then return .ok (base.getD {})
    else
      match ← loadFile files.project with
      | .error e => return .error e
      | .ok upper => return (layered base upper).withEnvironment env

/-- Writes a new settings file, and the directories on the way to it. -/
def writeDefault (path : String) : FileTask (Except OsError Unit) := do
  match ← .makeDirectories ((Path.parent? path).getD "") .done with
  | .error e => return .error e
  | .ok () => .write path defaultText .done

/-- Makes a new settings file and tells its path. A file that is there is kept unless `force` is
given. -/
def init (files : SettingsFiles) (isGlobal force : Bool) :
    FileTask (Except SettingsError String) :=
  let path := files.path isGlobal
  .isThere path fun there =>
    if there && !force then
      .done (.error (.invalid "config"
        ("Config already exists: " ++ path ++ ". Use --force to overwrite.")))
    else do
      match ← writeDefault path with
      | .error e => return .error (.os e)
      | .ok () => return .ok path

end Settings

end FishNav
