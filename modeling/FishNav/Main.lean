import FishNav.Command.Run

/-!
# The program

Carries out the requests for files of a command in the file system of the machine.
-/
namespace FishNav

/-- The cause behind an error of the file system. -/
def OsError.ofError : IO.Error → OsError
  | .noFileOrDirectory .. => .notFound
  | .alreadyExists .. => .taken
  | .inappropriateType _ 20 _ => .notDirectory
  | .inappropriateType _ 21 _ => .isDirectory
  | .invalidArgument _ 36 _ => .nameTooLong
  | e => .other (toString e)

def attempt {α : Type} (action : IO α) : IO (Except OsError α) := do
  return (← action.toBaseIO).mapError OsError.ofError

/-- Reads a little of a file, which fails on a directory. -/
def touch (path : String) : IO Unit := do
  let file ← IO.FS.Handle.mk path .read
  let _ ← file.read 1

def FileTask.perform {α : Type} : FileTask α → IO α
  | done a => return a
  | read path next => do (next (← attempt (IO.FS.readFile path))).perform
  | isThere path next => do (next (← attempt (IO.FS.realPath path)).isOk).perform
  | isFile path next => do (next (← attempt (touch path)).isOk).perform
  | canonical path next => do
    (next ((← attempt (IO.FS.realPath path)).toOption.map toString)).perform
  | makeDirectories path next => do (next (← attempt (IO.FS.createDirAll path))).perform
  | write path text next => do (next (← attempt (IO.FS.writeFile path text))).perform

def variableNames : List String :=
  ["HOME", "PATH", "XDG_CONFIG_HOME", "FISHSCOPE_OUTPUT_PRETTY", "FISHSCOPE_INCLUDE_ENV_PATH",
    "FISHSCOPE_FUNCTION_PATHS", "FISHSCOPE_EXTRA_BUILTINS"]

/-- The environment of the process. What the system has on record of its users is not looked at. -/
def readEnvironment : IO Environment := do
  let entries ← variableNames.filterMapM fun name => do
    return (← IO.getEnv name).map (name, ·)
  return ⟨entries, none⟩

end FishNav

open FishNav in
def main (args : List String) : IO UInt32 := do
  let cwd ← IO.currentDir
  let env ← readEnvironment
  let outcome ← (CommandLine.run (toString cwd) env args).perform
  IO.print outcome.output
  IO.eprint outcome.notice
  return outcome.exit.toUInt32
