import FishNav.File.Disk
import FishNav.Proofs.Text

/-!
# Disks

Going along a path is going along its parts one after the other (`walk_append`), and one segment
leads from a directory to itself, to the directory above or to what has the segment's name
(`Leads`). What is there stays there: directories are only added, and writing replaces the text of
one file or adds a file, so a path that leads to a place goes on leading to it (`Grows.find`).
Storing a text under a path, with the directories on the way, changes the file to which the path
then leads and no other (`store_spec`). If the path led nowhere before, that file is new
(`fileAt?_of_missing`), unless the path goes back out of a directory that had to be made first.
-/
namespace FishNav

namespace Disk

open Path.Parts (isIdle)

variable {d d' d'' : Disk} {place q : Place} {path text : String} {segment : List Char}

/-! ### Ways along a path -/

/-- A segment that is neither idle nor a step back. -/
def IsName (segment : List Char) : Prop := isIdle segment = false ∧ segment ≠ ['.', '.']

instance (segment : List Char) : Decidable (IsName segment) := inferInstanceAs (Decidable (_ ∧ _))

/-- Where a segment of a path leads from a directory. -/
inductive Leads (d : Disk) (q : Place) (segment : List Char) : Place → Prop
  | stay (idle : isIdle segment = true) : Leads d q segment q
  | up (back : segment = ['.', '.']) : Leads d q segment q.dropLast
  | down (name : IsName segment) (short : Text.byteLength segment ≤ nameLimit)
      (there : d.isDirectory (q ++ [String.ofList segment]) = true ∨
        (d.fileAt? (q ++ [String.ofList segment])).isSome = true) :
      Leads d q segment (q ++ [String.ofList segment])

theorem walk_nil (d : Disk) (place : Place) : d.walk place [] = .ok place := by rw [walk]

theorem walk_append (d : Disk) (place : Place) (front back : List (List Char)) :
    d.walk place (front ++ back) = d.walk place front >>= fun mid => d.walk mid back := by
  induction front generalizing place with
  | nil => rw [List.nil_append, walk_nil]; rfl
  | cons segment front ih =>
    rw [List.cons_append, walk, walk]
    simp only [ih]
    repeat' split
    all_goals rfl

theorem walk_append_eq_ok_iff {front back : List (List Char)} :
    d.walk q (front ++ back) = .ok place ↔
      ∃ mid, d.walk q front = .ok mid ∧ d.walk mid back = .ok place := by
  rw [walk_append]
  cases d.walk q front with
  | error e => simp [bind, Except.bind]
  | ok mid => simp [bind, Except.bind]

/-- One step of a walk: it starts in a directory and goes where the segment leads. -/
theorem walk_single_eq_ok_iff :
    d.walk q [segment] = .ok place ↔ d.isDirectory q = true ∧ d.Leads q segment place := by
  constructor
  · intro reached
    simp only [walk] at reached
    split at reached
    · cases reached
    · next directory =>
      refine ⟨by simpa using directory, ?_⟩
      split at reached
      · next idle =>
        obtain rfl := Except.ok.inj reached
        exact .stay idle
      · next busy =>
        split at reached
        · next back =>
          obtain rfl := Except.ok.inj reached
          exact .up back
        · next other =>
          split at reached
          · cases reached
          · next short =>
            split at reached
            · next there =>
              obtain rfl := Except.ok.inj reached
              exact .down ⟨by simpa using busy, other⟩ (Nat.le_of_not_lt short) (by simpa using there)
            · cases reached
  · rintro ⟨directory, leads⟩
    cases leads with
    | stay idle => simp [walk, directory, idle]
    | up back => simp [walk, directory, back, isIdle]
    | down name short there =>
      have enough : ¬ nameLimit < Text.byteLength segment := Nat.not_lt_of_le short
      simp [walk, directory, name.1, name.2, enough, there]

theorem walk_cons_eq_ok_iff {segments : List (List Char)} :
    d.walk q (segment :: segments) = .ok place ↔
      ∃ mid, (d.isDirectory q = true ∧ d.Leads q segment mid) ∧ d.walk mid segments = .ok place := by
  rw [← List.singleton_append, walk_append_eq_ok_iff]
  simp only [walk_single_eq_ok_iff]

/-! ### Disks that grow -/

/-- All directories and files of `d` are there on `d'` too, perhaps with other texts. -/
structure Grows (d d' : Disk) : Prop where
  cwd : d'.cwd = d.cwd
  directory : ∀ {place : Place}, d.isDirectory place = true → d'.isDirectory place = true
  file : ∀ {place : Place}, (d.fileAt? place).isSome = true → (d'.fileAt? place).isSome = true

namespace Grows

theorem refl (d : Disk) : Grows d d := ⟨rfl, id, id⟩

theorem trans (first : Grows d d') (second : Grows d' d'') : Grows d d'' :=
  ⟨second.cwd.trans first.cwd, fun there => second.directory (first.directory there),
    fun there => second.file (first.file there)⟩

theorem leads (grows : Grows d d') (leads : d.Leads q segment place) :
    d'.Leads q segment place := by
  cases leads with
  | stay idle => exact .stay idle
  | up back => exact .up back
  | down name short there => exact .down name short (there.imp grows.directory grows.file)

/-- A walk that succeeds goes on to succeed while the disk grows. -/
theorem walk (grows : Grows d d') {segments : List (List Char)}
    (reached : d.walk q segments = .ok place) : d'.walk q segments = .ok place := by
  induction segments generalizing q with
  | nil =>
    rw [walk_nil] at reached ⊢
    exact reached
  | cons segment segments ih =>
    obtain ⟨mid, ⟨directory, leads⟩, rest⟩ := walk_cons_eq_ok_iff.mp reached
    exact walk_cons_eq_ok_iff.mpr ⟨mid, ⟨grows.directory directory, grows.leads leads⟩, ih rest⟩

theorem segments (grows : Grows d d') (path : String) : d'.segments path = d.segments path := by
  rw [Disk.segments, Disk.segments, grows.cwd]

end Grows

/-- What is at a path, in terms of a walk from the root. -/
theorem find_eq_ok_iff :
    d.find path = .ok place ↔
      isTooLong path = false ∧ path.isEmpty = false ∧ d.walk [] (d.segments path) = .ok place := by
  rw [find, follow]
  by_cases long : isTooLong path = true
  · simp [long]
  · by_cases empty : path.isEmpty = true <;> simp [long, empty]

theorem Grows.find (grows : Grows d d') (found : d.find path = .ok place) :
    d'.find path = .ok place := by
  obtain ⟨short, some, reached⟩ := find_eq_ok_iff.mp found
  exact find_eq_ok_iff.mpr ⟨short, some, grows.segments path ▸ grows.walk reached⟩

theorem Leads.eq_of_name (leads : d.Leads q segment place) (name : IsName segment) :
    place = q ++ [String.ofList segment] := by
  cases leads with
  | stay idle => cases name.1.symm.trans idle
  | up back => exact absurd back name.2
  | down => rfl

/-- A name that leads to a file that was there before led to it before. -/
theorem Leads.of_file (leads : d'.Leads q segment place) (name : IsName segment)
    (held : (d.fileAt? place).isSome = true) : d.Leads q segment place := by
  cases leads with
  | stay idle => cases name.1.symm.trans idle
  | up back => exact absurd back name.2
  | down name short there => exact .down name short (Or.inr held)

/-- A path that ends in two names leads to a place that ends in them. -/
theorem exists_of_find_names {front : List (List Char)} {first second : List Char}
    (ends : d.segments path = front ++ [first, second]) (name : IsName first)
    (name' : IsName second) (found : d.find path = .ok place) :
    ∃ mid, place = mid ++ [String.ofList first, String.ofList second] := by
  obtain ⟨-, -, reached⟩ := find_eq_ok_iff.mp found
  rw [ends, walk_append_eq_ok_iff] at reached
  obtain ⟨mid, -, rest⟩ := reached
  obtain ⟨inner, ⟨-, leads⟩, rest⟩ := walk_cons_eq_ok_iff.mp rest
  obtain ⟨-, leads'⟩ := walk_single_eq_ok_iff.mp rest
  refine ⟨mid, ?_⟩
  rw [leads'.eq_of_name name', leads.eq_of_name name, List.append_assoc, List.singleton_append]

/-! ### Directories -/

/-- A directory was made, or lies on the way to a directory or a file. -/
theorem isDirectory_iff :
    d.isDirectory q = true ↔ q = [] ∨ (∃ made ∈ d.directories, q <+: made) ∨
      ∃ file ∈ d.files, q <+: file.1 ∧ q ≠ file.1 := by
  simp [isDirectory, or_assoc]

/-- What is on the way to a file is a directory. -/
theorem isDirectory_of_file {mid : Place} (held : (d.fileAt? (q ++ mid)).isSome = true)
    (below : mid ≠ []) : d.isDirectory q = true := by
  rw [fileAt?, Option.isSome_map, List.find?_isSome] at held
  obtain ⟨file, member, here⟩ := held
  rw [beq_iff_eq] at here
  exact isDirectory_iff.mpr (Or.inr (Or.inr ⟨file, member, by simp [here], by simp [here, below]⟩))

theorem grows_directories (d : Disk) (place : Place) :
    Grows d { d with directories := place :: d.directories } := by
  refine ⟨rfl, fun there => ?_, fun there => there⟩
  rw [isDirectory_iff] at there ⊢
  rcases there with root | ⟨made, member, below⟩ | file
  · exact Or.inl root
  · exact Or.inr (Or.inl ⟨made, List.mem_cons_of_mem place member, below⟩)
  · exact Or.inr (Or.inr file)

/-- Directories that are made leave the files alone. -/
theorem makeAlong_spec {segments : List (List Char)}
    (made : d.makeAlong q segments = .ok d') : d'.files = d.files ∧ Grows d d' := by
  induction segments generalizing d q with
  | nil =>
    rw [makeAlong] at made
    split at made
    · obtain rfl := Except.ok.inj made
      exact ⟨rfl, .refl d⟩
    · cases made
  | cons segment segments ih =>
    simp only [makeAlong] at made
    split at made
    · cases made
    · split at made
      · exact ih made
      · split at made
        · exact ih made
        · split at made
          · cases made
          · split at made
            · exact ih made
            · obtain ⟨files, grows⟩ := ih made
              exact ⟨files, (grows_directories d _).trans grows⟩

/-- Making directories touches no file and takes nothing away. -/
theorem makeDirectories_spec (made : d.makeDirectories path = .ok d') :
    d'.files = d.files ∧ Grows d d' := by
  rw [makeDirectories] at made
  split at made
  · obtain rfl := Except.ok.inj made
    exact ⟨rfl, .refl d⟩
  · split at made
    · cases made
    · exact makeAlong_spec made

/-! ### Texts of files -/

/-- Putting a text into a file leaves all other files as they are. -/
theorem fileAt?_put (d : Disk) (place q : Place) (text : String) :
    (d.put place text).fileAt? q = if q = place then some text else d.fileAt? q := by
  rw [fileAt?, put, fileAt?, List.find?_append]
  by_cases same : q = place
  · subst same
    have gone : (d.files.filter (·.1 != q)).find? (·.1 == q) = none := by
      simp [List.find?_eq_none]
    rw [gone, if_pos rfl]
    simp
  · have kept : (d.files.filter (·.1 != place)).find? (·.1 == q) = d.files.find? (·.1 == q) := by
      rw [List.find?_filter]
      congr 1
      funext file
      by_cases here : file.1 = q
      · simp [here, same]
      · simp [here]
    have last : place ≠ q := fun other => same other.symm
    rw [kept, if_neg same]
    simp [last]

theorem grows_put (d : Disk) (place : Place) (text : String) : Grows d (d.put place text) := by
  refine ⟨rfl, fun {q} there => ?_, fun {q} there => ?_⟩
  · rw [isDirectory_iff] at there ⊢
    rcases there with root | made | ⟨file, member, below, other⟩
    · exact Or.inl root
    · exact Or.inr (Or.inl made)
    · -- the file that makes `q` a directory may be the one that is written
      refine Or.inr (Or.inr ?_)
      by_cases same : file.1 = place
      · exact ⟨(place, text), by simp [put], same ▸ below, same ▸ other⟩
      · exact ⟨file, by simp [put, member, same], below, other⟩
  · rw [fileAt?_put]
    split
    · rfl
    · exact there

/-- A file is written where it is, or into a directory in which nothing has its name. -/
theorem write_cases (written : d.write path text = .ok d') :
    (∃ place, d.find path = .ok place ∧ d' = d.put place text) ∨
      ∃ front name q, d.find path = .error .notFound ∧ path.isEmpty = false ∧
        d.segments path = front ++ [name] ∧ d.walk [] front = .ok q ∧ d.isDirectory q = true ∧
        d' = d.put (q ++ [String.ofList name]) text := by
  rw [write] at written
  split at written
  · next place found =>
    split at written
    · cases written
    · exact Or.inl ⟨place, found, (Except.ok.inj written).symm⟩
  · next missing =>
    split at written
    · cases written
    · next name last =>
      split at written
      · cases written
      · next q reached =>
        split at written
        · cases written
        · next nonempty =>
          split at written
          · cases written
          · next directory =>
            split at written
            · cases written
            · obtain ⟨front, segments⟩ := List.getLast?_eq_some_iff.mp last
              rw [segments, List.dropLast_concat] at reached
              exact Or.inr ⟨front, name, q, missing, by simpa using nonempty, segments, reached,
                by simpa using directory, (Except.ok.inj written).symm⟩
  · cases written

/-- What is missing in a directory is missing under a name. -/
theorem isName_of_missing {front : List (List Char)} (reached : d.walk [] front = .ok q)
    (directory : d.isDirectory q = true)
    (missing : d.walk [] (front ++ [segment]) = .error .notFound) :
    IsName segment ∧ Text.byteLength segment ≤ nameLimit := by
  have step : d.walk q [segment] = .error .notFound := by
    rw [walk_append, reached] at missing
    exact missing
  simp only [walk, directory, Bool.not_true, Bool.false_eq_true, if_false] at step
  split at step
  · cases step
  · next busy =>
    split at step
    · cases step
    · next other =>
      split at step
      · cases step
      · next short => exact ⟨⟨by simpa using busy, other⟩, Nat.le_of_not_lt short⟩

/-- What is written is where the path leads from then on. -/
theorem write_spec (written : d.write path text = .ok d') :
    ∃ place, d' = d.put place text ∧ d'.find path = .ok place := by
  rcases write_cases written with
    ⟨place, found, rfl⟩ | ⟨front, name, q, missing, nonempty, segments, reached, directory, rfl⟩
  · exact ⟨place, rfl, (grows_put d place text).find found⟩
  · have short : isTooLong path = false := by
      rw [find] at missing
      split at missing
      · cases missing
      · next short => simpa using short
    rw [find, short, follow, nonempty, segments] at missing
    obtain ⟨plain, fits⟩ := isName_of_missing reached directory missing
    have grows := grows_put d (q ++ [String.ofList name]) text
    refine ⟨_, rfl, find_eq_ok_iff.mpr ⟨short, nonempty, ?_⟩⟩
    rw [grows.segments, segments, walk_append_eq_ok_iff]
    refine ⟨q, grows.walk reached, walk_single_eq_ok_iff.mpr ⟨grows.directory directory, ?_⟩⟩
    exact .down plain fits (Or.inr (by rw [fileAt?_put, if_pos rfl]; rfl))

/-- Reading finds the place and then the text there. -/
theorem read_eq_ok_iff :
    d.read path = .ok text ↔ ∃ place, d.find path = .ok place ∧ d.fileAt? place = some text := by
  rw [read]
  cases d.find path with
  | error e => exact ⟨nofun, nofun⟩
  | ok place =>
    simp only [bind, Except.bind]
    cases held : d.fileAt? place <;> simp [held]

theorem isThere_of_find (found : d.find path = .ok place) : d.isThere path = true := by
  rw [isThere, found]
  rfl

/-! ### Paths without steps back -/

/-- The path ends in a name, and before it there are no steps back. -/
def Straight (d : Disk) (path : String) : Prop :=
  ∃ front name, d.segments path = front ++ [name] ∧ IsName name ∧ ['.', '.'] ∉ front

/-- A file that a way without steps back reaches on some disk is reached on every disk that has it:
all on the way is above the file. -/
theorem walk_of_file {front : List (List Char)} {name : List Char}
    (reached : d'.walk q (front ++ [name]) = .ok place) (isName : IsName name)
    (straight : ['.', '.'] ∉ front) (held : (d.fileAt? place).isSome = true) :
    d.walk q (front ++ [name]) = .ok place ∧ ∃ mid, mid ≠ [] ∧ place = q ++ mid := by
  induction front generalizing q with
  | nil =>
    obtain ⟨-, leads⟩ := walk_single_eq_ok_iff.mp reached
    have same := leads.eq_of_name isName
    rw [same] at held
    have directory := isDirectory_of_file held (List.cons_ne_nil _ _)
    have leads' := leads.of_file isName (same ▸ held)
    exact ⟨walk_single_eq_ok_iff.mpr ⟨directory, leads'⟩, _, List.cons_ne_nil _ _, same⟩
  | cons segment front ih =>
    obtain ⟨next, ⟨-, leads⟩, rest⟩ := walk_cons_eq_ok_iff.mp reached
    obtain ⟨walked, mid, below, rfl⟩ := ih rest fun back => straight (List.mem_cons_of_mem _ back)
    have directory := isDirectory_of_file held below
    cases leads with
    | stay idle =>
      exact ⟨walk_cons_eq_ok_iff.mpr ⟨q, ⟨directory, .stay idle⟩, walked⟩, mid, below, rfl⟩
    | up back => exact absurd (back ▸ List.mem_cons_self) straight
    | down named short there =>
      rw [List.append_assoc] at held
      have above := isDirectory_of_file held (by simp)
      refine ⟨walk_cons_eq_ok_iff.mpr ⟨_, ⟨above, .down named short (Or.inl directory)⟩, walked⟩, ?_⟩
      exact ⟨_, by simp, List.append_assoc _ _ _⟩

/-- Where a straight path led to nothing, there was no file. -/
theorem fileAt?_of_missing (grows : Grows d d') (missing : d.isThere path = false)
    (straight : d.Straight path) (found : d'.find path = .ok place) : d.fileAt? place = none := by
  obtain ⟨front, name, segments, isName, forward⟩ := straight
  obtain ⟨short, nonempty, reached⟩ := find_eq_ok_iff.mp found
  rw [grows.segments, segments] at reached
  rw [← Option.not_isSome_iff_eq_none]
  intro held
  have walked := (walk_of_file reached isName forward held).1
  have there := isThere_of_find (find_eq_ok_iff.mpr ⟨short, nonempty, segments ▸ walked⟩)
  exact Bool.false_ne_true (missing.symm.trans there)

/-- The disk with a text stored under a path, and the directories on the way made. -/
def store (d : Disk) (path text : String) : Except OsError Disk := do
  let made ← d.makeDirectories ((Path.parent? path).getD "")
  made.write path text

/-- A text that is stored can be found under its path, and all other files are as they were. -/
theorem store_spec (stored : d.store path text = .ok d') :
    Grows d d' ∧ ∃ place, d'.find path = .ok place ∧ d'.fileAt? place = some text ∧
      ∀ q, q ≠ place → d'.fileAt? q = d.fileAt? q := by
  rw [store] at stored
  cases made : d.makeDirectories ((Path.parent? path).getD "") with
  | error e =>
    rw [made] at stored
    cases stored
  | ok middle =>
    rw [made] at stored
    obtain ⟨files, grows⟩ := makeDirectories_spec made
    obtain ⟨place, rfl, found⟩ := write_spec stored
    refine ⟨grows.trans (grows_put middle place text), place, found, ?_, ?_⟩
    · rw [fileAt?_put, if_pos rfl]
    · intro q other
      rw [fileAt?_put, if_neg other, fileAt?, files, fileAt?]

end Disk

end FishNav
