import FishNav.Toml.Reader
import FishNav.Tree.Load

/-!
# Settings

Which further names count as builtins, where to search for scripts, and how to print. Settings come
in three sections, `analysis`, `paths` and `output`; a section or a setting that is left out has its
default value, and unknown names are skipped.
-/
namespace FishNav

structure SearchSettings where
  functionPaths : List String := ["~/.config/fish/functions", "/usr/share/fish/functions"]
  includeEnvPath : Bool := false
  deriving DecidableEq, Repr

structure Settings where
  extraBuiltins : List String := []
  search : SearchSettings := {}
  pretty : Bool := false
  deriving DecidableEq, Repr

/-! ### From data

A section may also be written as an array of its settings in order, of which the last ones may be
missing. Whether there may be more of them is up to the format. -/

def Json.strings? (v : Json) : Option (List String) := v.items?.bind (·.mapM string?)

/-- The setting of a member, if it is there. -/
def Json.setting? {α : Type} (default : α) (read : Json → Option α) : Option Json → Option α
  | none => some default
  | some v => read v

/-- The settings of a section, from members or from an array, as a list of values that may be
missing. -/
def Json.section? (surplus : Bool) (keys : List String) : Json → Option (List (Option Json))
  | .obj members => some (keys.map fun key => (Json.obj members).get? key)
  | .arr items =>
    if items.length ≤ keys.length || surplus then
      some (keys.zipIdx.map fun (_, i) => items[i]?)
    else none
  | _ => none

namespace SearchSettings

/-- The section `paths`. -/
def ofJson? (surplus : Bool) (v : Json) : Option SearchSettings := do
  let defaults : SearchSettings := {}
  match ← v.section? surplus ["function_paths", "include_env_path"] with
  | [functionPaths, includeEnvPath] =>
    return {
      functionPaths := ← Json.setting? defaults.functionPaths Json.strings? functionPaths
      includeEnvPath := ← Json.setting? defaults.includeEnvPath Json.bool? includeEnvPath }
  | _ => none

end SearchSettings

namespace Settings

def analysis? (surplus : Bool) (v : Json) : Option (List String) := do
  match ← v.section? surplus ["extra_builtins"] with
  | [extraBuiltins] => Json.setting? [] Json.strings? extraBuiltins
  | _ => none

def output? (surplus : Bool) (v : Json) : Option Bool := do
  match ← v.section? surplus ["pretty"] with
  | [pretty] => Json.setting? false Json.bool? pretty
  | _ => none

/-- The settings that a value holds. With `surplus`, arrays may have more items than there are
settings. -/
def ofJson? (surplus : Bool) (v : Json) : Option Settings := do
  match ← v.section? surplus ["analysis", "paths", "output"] with
  | [analysis, paths, output] =>
    return {
      extraBuiltins := ← Json.setting? [] (analysis? surplus) analysis
      search := ← Json.setting? {} (SearchSettings.ofJson? surplus) paths
      pretty := ← Json.setting? false (output? surplus) output }
  | _ => none

def ofToml? (text : String) : Option Settings := (Toml.parse? text).bind (ofJson? true)

def toJson (s : Settings) : Json :=
  .obj
    [("analysis", .obj [("extra_builtins", .arr (s.extraBuiltins.map .str))]),
      ("output", .obj [("pretty", .bool s.pretty)]),
      ("paths", .obj
        [("function_paths", .arr (s.search.functionPaths.map .str)),
          ("include_env_path", .bool s.search.includeEnvPath)])]

/-- The text of a new settings file: all settings with their default values. -/
def defaultText : String :=
  "[analysis]\nextra_builtins = []\n\n" ++
  "[paths]\nfunction_paths = [\n    \"~/.config/fish/functions\",\n" ++
  "    \"/usr/share/fish/functions\",\n]\ninclude_env_path = false\n\n" ++
  "[output]\npretty = false\n"

/-! ### Layers -/

/-- The names of `more` that are new, behind those of `names`, each once. -/
def addNames (names : List String) : List String → List String
  | [] => names
  | n :: more => addNames (if names.contains n then names else names ++ [n]) more

/-- Settings with others laid over them. The upper ones win, except that builtins add up. -/
def overlay (base upper : Settings) : Settings :=
  { upper with extraBuiltins := addNames base.extraBuiltins upper.extraBuiltins }

end Settings

end FishNav
