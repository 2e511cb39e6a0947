import FishNav.File.Path
import FishNav.Text.Bytes

/-!
# Files

What a program may ask of the file system, as data: a task is a tree of requests, each with what to
do for every answer. Tasks can be carried out by the operating system or on a disk in memory, and
what they do to a disk in memory is what can be said about them. Such a disk has no links, and what
its files hold is Unicode text; rights, times and other bytes are left out.
-/
namespace FishNav

inductive OsError where
  | notFound
  | taken
  | notDirectory
  | isDirectory
  | nameTooLong
  | other (text : String)
  deriving DecidableEq, Repr

namespace OsError

def message : OsError → String
  | notFound => "No such file or directory (os error 2)"
  | taken => "File exists (os error 17)"
  | notDirectory => "Not a directory (os error 20)"
  | isDirectory => "Is a directory (os error 21)"
  | nameTooLong => "File name too long (os error 36)"
  | other text => text

end OsError

/-- Work that may ask for files before it comes to a result. -/
inductive FileTask (α : Type) where
  | done (result : α)
  | read (path : String) (next : Except OsError String → FileTask α)
  | isThere (path : String) (next : Bool → FileTask α)
  | isFile (path : String) (next : Bool → FileTask α)
  /-- The absolute path without idle segments and steps back, if something is there. -/
  | canonical (path : String) (next : Option String → FileTask α)
  | makeDirectories (path : String) (next : Except OsError Unit → FileTask α)
  | write (path text : String) (next : Except OsError Unit → FileTask α)

namespace FileTask

def bind {α β : Type} : FileTask α → (α → FileTask β) → FileTask β
  | done a, f => f a
  | read path next, f => .read path fun answer => (next answer).bind f
  | isThere path next, f => .isThere path fun answer => (next answer).bind f
  | isFile path next, f => .isFile path fun answer => (next answer).bind f
  | canonical path next, f => .canonical path fun answer => (next answer).bind f
  | makeDirectories path next, f => .makeDirectories path fun answer => (next answer).bind f
  | write path text next, f => .write path text fun answer => (next answer).bind f

instance : Monad FileTask where
  pure := .done
  bind := .bind

end FileTask

/-! ### Disks in memory -/

/-- A place on a disk: the names on the way from the root to it. -/
abbrev Place := List String

/-- Files with their texts, directories that hold none, and the directory from which relative
paths are seen. -/
structure Disk where
  files : List (Place × String)
  directories : List Place
  cwd : String

namespace Disk

/-- The names on an absolute path, idle segments left out. -/
def placeOf (path : String) : Place :=
  (((Path.Parts.ofPath path).segments).filter (!Path.Parts.isIdle ·)).map String.ofList

def pathOf (place : Place) : String := "/" ++ "/".intercalate place

/-- A disk on which there is nothing but the directory `cwd`. -/
def empty (cwd : String) : Disk := ⟨[], [placeOf cwd], cwd⟩

def fileAt? (d : Disk) (place : Place) : Option String :=
  (d.files.find? (·.1 == place)).map (·.2)

/-- Directories are those that were made and those on the way to a directory or a file. -/
def isDirectory (d : Disk) (place : Place) : Bool :=
  place.isEmpty || d.directories.any (place.isPrefixOf ·) ||
    d.files.any fun (file, _) => place.isPrefixOf file && place != file

def nameLimit : Nat := 255

def pathLimit : Nat := 4095

/-- Goes along segments from a place. Only directories can be passed. -/
def walk (d : Disk) : Place → List (List Char) → Except OsError Place
  | place, [] => .ok place
  | place, segment :: segments =>
    if !d.isDirectory place then .error .notDirectory
    else if Path.Parts.isIdle segment then d.walk place segments
    else if segment = ['.', '.'] then d.walk place.dropLast segments
    else if nameLimit < Text.byteLength segment then .error .nameTooLong
    else
      let next := place ++ [String.ofList segment]
      if d.isDirectory next || (d.fileAt? next).isSome then d.walk next segments
      else .error .notFound

/-- The segments of a path, seen from the root. -/
def segments (d : Disk) (path : String) : List (List Char) :=
  Text.split '/' (Path.join d.cwd path).toList

def isTooLong (path : String) : Bool := pathLimit < Text.byteLength path.toList

/-- Goes along a path of any length. -/
def follow (d : Disk) (path : String) : Except OsError Place :=
  if path.isEmpty then .error .notFound else d.walk [] (d.segments path)

def find (d : Disk) (path : String) : Except OsError Place :=
  if isTooLong path then .error .nameTooLong else d.follow path

def read (d : Disk) (path : String) : Except OsError String := do
  let place ← d.find path
  match d.fileAt? place with
  | some text => .ok text
  | none => .error .isDirectory

def isThere (d : Disk) (path : String) : Bool := (d.find path).isOk

def isFile (d : Disk) (path : String) : Bool := (d.read path).isOk

/-- The way to what is at a path, from the root on. The path is taken one name at a time, so it may
be of any length. -/
def canonical? (d : Disk) (path : String) : Option String :=
  match d.follow path with
  | .ok place => some (pathOf place)
  | .error _ => none

def put (d : Disk) (place : Place) (text : String) : Disk :=
  { d with files := d.files.filter (·.1 != place) ++ [(place, text)] }

/-- Goes along segments from a place and makes the directories that are missing. -/
def makeAlong (d : Disk) : Place → List (List Char) → Except OsError Disk
  | place, [] => if d.isDirectory place then .ok d else .error .taken
  | place, segment :: segments =>
    if !d.isDirectory place then .error .notDirectory
    else if Path.Parts.isIdle segment then d.makeAlong place segments
    else if segment = ['.', '.'] then d.makeAlong place.dropLast segments
    else if nameLimit < Text.byteLength segment then .error .nameTooLong
    else
      let next := place ++ [String.ofList segment]
      if d.isDirectory next || (d.fileAt? next).isSome then d.makeAlong next segments
      else makeAlong { d with directories := next :: d.directories } next segments

def makeDirectories (d : Disk) (path : String) : Except OsError Disk :=
  if path.isEmpty then .ok d
  else if isTooLong path then .error .nameTooLong
  else d.makeAlong [] (d.segments path)

def write (d : Disk) (path text : String) : Except OsError Disk :=
  match d.find path with
  | .ok place => if d.isDirectory place then .error .isDirectory else .ok (d.put place text)
  | .error .notFound =>
    match (d.segments path).getLast? with
    | none => .error .notFound
    | some name =>
      match d.walk [] (d.segments path).dropLast with
      | .error e => .error e
      | .ok place =>
        if path.isEmpty then .error .notFound
        else if !d.isDirectory place then .error .notDirectory
        else if name.isEmpty then .error .isDirectory
        else .ok (d.put (place ++ [String.ofList name]) text)
  | .error e => .error e

/-- The answer to a request that changes the disk, and the disk afterwards. -/
def outcome (d : Disk) : Except OsError Disk → Except OsError Unit × Disk
  | .ok d' => (.ok (), d')
  | .error e => (.error e, d)

end Disk

def FileTask.run {α : Type} : FileTask α → Disk → α × Disk
  | done a, d => (a, d)
  | read path next, d => (next (d.read path)).run d
  | isThere path next, d => (next (d.isThere path)).run d
  | isFile path next, d => (next (d.isFile path)).run d
  | canonical path next, d => (next (d.canonical? path)).run d
  | makeDirectories path next, d =>
    let (answer, d') := d.outcome (d.makeDirectories path)
    (next answer).run d'
  | write path text next, d =>
    let (answer, d') := d.outcome (d.write path text)
    (next answer).run d'

end FishNav
