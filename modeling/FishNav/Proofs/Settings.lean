import FishNav.Proofs.Disk
import FishNav.Proofs.File

/-!
# Settings files are kept

To load settings changes nothing on the disk. A new settings file is made only where nothing is,
unless it is forced; then one file is written, which is loaded as the default settings, and all
others stay as they are (`renewed_of_store`). So in a run of requests, with other programs writing
settings files now and then, a settings file keeps its text until a program writes that very file or
a new one is forced on it (`Step.keeps_afterAll`). The user's file and the project's are never the
same one, since they have directories of different names (`SettingsFiles.apart_ofEnvironment`).

All this is about disks as `Disk` has them: without links, so that paths with different names lead to
different files, and with texts that are Unicode. That a new file is loaded as the default settings
is checked with the reader of `Toml` (`ofToml?_defaultText`); of any other reader of the format it is
an assumption.
-/
namespace FishNav

/-! ### Places of the two files -/

/-- Nothing, or something that ends with a slash. -/
def Path.IsBase (front : List Char) : Prop := front = [] ∨ ∃ more, front = more ++ ['/']

theorem Path.IsBase.append {front more : List Char} (left : IsBase front) (right : IsBase more) :
    IsBase (front ++ more) := by
  rcases right with rfl | ⟨rest, rfl⟩
  · rwa [List.append_nil]
  · exact Or.inr ⟨front ++ rest, by rw [List.append_assoc]⟩

theorem Path.exists_join (base child : String) :
    ∃ front, IsBase front ∧ (join base child).toList = front ++ child.toList := by
  rw [join]
  split
  · exact ⟨[], Or.inl rfl, rfl⟩
  · split
    · next slash =>
      obtain ⟨more, ends⟩ := List.getLast?_eq_some_iff.mp (beq_iff_eq.mp slash)
      exact ⟨base.toList, Or.inr ⟨more, ends⟩, String.toList_append⟩
    · exact ⟨base.toList ++ ['/'], Or.inr ⟨_, rfl⟩, by simp⟩

theorem Path.exists_split {front name : List Char} (base : IsBase front) (plain : '/' ∉ name) :
    ∃ segments, Text.split '/' (front ++ name) = segments ++ [name] := by
  rcases base with rfl | ⟨more, rfl⟩
  · exact ⟨[], Text.split_of_not_mem plain⟩
  · refine ⟨Text.split '/' more, ?_⟩
    rw [List.append_assoc, List.singleton_append, Text.split_append, Text.split_of_not_mem plain]

namespace SettingsFiles

/-- The two paths lead to different places, whatever is on the disk. -/
def Apart (files : SettingsFiles) : Prop :=
  ∀ (d : Disk) (p q : Place), d.find files.global = .ok p → d.find files.project = .ok q → p ≠ q

theorem Apart.ne {files : SettingsFiles} (apart : files.Apart) {d : Disk} {p q : Place}
    {isGlobal : Bool} (own : d.find (files.path isGlobal) = .ok p)
    (other : d.find (files.path !isGlobal) = .ok q) : p ≠ q := by
  cases isGlobal with
  | true => exact apart d p q own other
  | false => exact (apart d q p other own).symm

/-- The path of a settings file ends in the name of its directory and its own. -/
theorem exists_segments (d : Disk) (root directory : String) (filled : directory ≠ "")
    (plain : '/' ∉ directory.toList) :
    ∃ front, d.segments (Path.join (Path.join root directory) "config.toml") =
      front ++ [directory.toList, "config.toml".toList] := by
  obtain ⟨front, base, inner⟩ := Path.exists_join root directory
  have outer : (Path.join (Path.join root directory) "config.toml").toList =
      front ++ directory.toList ++ '/' :: "config.toml".toList := by
    have nonempty : (Path.join root directory).isEmpty = false := by
      rw [Bool.eq_false_iff, Ne, String.isEmpty_iff, ← String.toList_inj, inner]
      simp [filled]
    have unslashed : ((Path.join root directory).toList.getLast? == some '/') = false := by
      refine beq_false_of_ne fun slash => plain ?_
      rw [inner, List.getLast?_append] at slash
      cases last : directory.toList.getLast? with
      | none => simp [filled] at last
      | some c =>
        rw [last] at slash
        exact Option.some.inj slash ▸ List.mem_of_getLast? last
    rw [Path.join, nonempty, unslashed]
    simp [Path.isAbsolute, inner]
  obtain ⟨more, base', whole⟩ :=
    Path.exists_join d.cwd (Path.join (Path.join root directory) "config.toml")
  obtain ⟨segments, pieces⟩ := Path.exists_split (base'.append base) plain
  refine ⟨segments, ?_⟩
  rw [Disk.segments, whole, outer, ← List.append_assoc, ← List.append_assoc, Text.split_append,
    pieces, Text.split_of_not_mem (by decide), List.append_assoc, List.singleton_append]

/-- The two settings files never share a place: they are in directories of different names. -/
theorem apart_ofEnvironment (root : String) (env : Environment) :
    (ofEnvironment root env).Apart := by
  intro d p q first second same
  obtain ⟨front, user⟩ := exists_segments d (configHome env) "fishscope" (by decide)
    (by decide)
  obtain ⟨front', project⟩ := exists_segments d root ".fishscope" (by decide) (by decide)
  obtain ⟨mid, rfl⟩ := Disk.exists_of_find_names user (by decide) (by decide) first
  obtain ⟨mid', rfl⟩ := Disk.exists_of_find_names project (by decide) (by decide) second
  have names := (List.append_inj' same rfl).2
  revert names
  decide

end SettingsFiles

/-! ### Storing a file -/

/-- The files have the same texts on both disks. -/
def Disk.SameFiles (d d' : Disk) : Prop := ∀ q, d'.fileAt? q = d.fileAt? q

namespace Settings

variable {files : SettingsFiles} {d d' : Disk} {path text : String} {place : Place}
  {isGlobal force : Bool} {e : OsError}

/-- Stores a text, with the directories on the way to it, as a new settings file is stored. -/
def storing (path text : String) : FileTask (Except OsError Unit) := do
  match ← .makeDirectories ((Path.parent? path).getD "") .done with
  | .error e => return .error e
  | .ok () => .write path text .done

theorem writeDefault_eq (path : String) : writeDefault path = storing path defaultText := rfl

/-- Where the directories cannot be made, nothing is stored and the disk stays as it is. -/
theorem run_storing_unmade
    (refused : d.makeDirectories ((Path.parent? path).getD "") = .error e) :
    (storing path text).run d = (.error e, d) := by
  rw [storing, FileTask.run_bind]
  simp only [FileTask.run, refused]
  rfl

theorem run_storing_made (made : d.makeDirectories ((Path.parent? path).getD "") = .ok d') :
    (storing path text).run d = d'.outcome (d'.write path text) := by
  rw [storing, FileTask.run_bind]
  simp only [FileTask.run, made]
  rfl

theorem run_storing_ok (stored : d.store path text = .ok d') :
    (storing path text).run d = (.ok (), d') := by
  rw [Disk.store] at stored
  cases made : d.makeDirectories ((Path.parent? path).getD "") with
  | error e =>
    rw [made] at stored
    cases stored
  | ok middle =>
    rw [made] at stored
    change middle.write path text = .ok d' at stored
    rw [run_storing_made made, stored, Disk.outcome]

/-- If a text cannot be stored, no file is changed. -/
theorem run_storing_error (refused : d.store path text = .error e) :
    ∃ after, (storing path text).run d = (.error e, after) ∧ d.Grows after ∧
      d.SameFiles after := by
  rw [Disk.store] at refused
  cases made : d.makeDirectories ((Path.parent? path).getD "") with
  | error e' =>
    rw [made] at refused
    obtain rfl := Except.error.inj refused
    exact ⟨d, run_storing_unmade made, .refl d, fun _ => rfl⟩
  | ok middle =>
    rw [made] at refused
    change middle.write path text = .error e at refused
    obtain ⟨same, grows⟩ := Disk.makeDirectories_spec made
    refine ⟨middle, by rw [run_storing_made made, refused, Disk.outcome], grows, fun q => ?_⟩
    rw [Disk.fileAt?, same, Disk.fileAt?]

/-- Storing a text changes no file but the one that is then at the path. -/
theorem storing_spec (path text : String) (d : Disk) :
    d.Grows ((storing path text).run d).2 ∧
      (d.SameFiles ((storing path text).run d).2 ∨
        ∃ place, ((storing path text).run d).2.find path = .ok place ∧
          ∀ q, q ≠ place → ((storing path text).run d).2.fileAt? q = d.fileAt? q) := by
  cases stored : d.store path text with
  | error e =>
    obtain ⟨after, run, grows, same⟩ := run_storing_error stored
    rw [run]
    exact ⟨grows, Or.inl same⟩
  | ok d' =>
    rw [run_storing_ok stored]
    obtain ⟨grows, place, found, -, others⟩ := Disk.store_spec stored
    exact ⟨grows, Or.inr ⟨place, found, others⟩⟩

/-! ### New files -/

def refusal (path : String) : SettingsError :=
  .invalid "config" ("Config already exists: " ++ path ++ ". Use --force to overwrite.")

theorem run_init_refused (there : d.isThere (files.path isGlobal) = true) :
    (init files isGlobal false).run d = (.error (refusal (files.path isGlobal)), d) := by
  simp only [init, FileTask.run, there]
  rfl

/-- A new file is stored if it is asked for by force or there is none. -/
theorem run_init (free : force = true ∨ d.isThere (files.path isGlobal) = false) :
    (init files isGlobal force).run d =
      ((((storing (files.path isGlobal) defaultText).run d).1.map fun _ =>
          files.path isGlobal).mapError .os,
        ((storing (files.path isGlobal) defaultText).run d).2) := by
  have go : (d.isThere (files.path isGlobal) && !force) = false := by
    rcases free with forced | missing
    · simp [forced]
    · simp [missing]
  simp only [init, FileTask.run, go, Bool.false_eq_true, if_false]
  rw [FileTask.run_bind, writeDefault_eq]
  cases ((storing (files.path isGlobal) defaultText).run d).1 <;> rfl

/-! ### Loading a new file -/

/-- The text of a new settings file reads as the default settings. -/
theorem ofToml?_defaultText : ofToml? defaultText = some {} := by decide +kernel

theorem run_loadFile {s : Settings} (found : d.find path = .ok place)
    (held : d.fileAt? place = some text) (reads : ofToml? text = some s) :
    (loadFile path).run d = (.ok (some s), d) := by
  have read := Disk.read_eq_ok_iff.mpr ⟨place, found, held⟩
  simp only [loadFile, FileTask.run, Disk.isThere_of_find found, if_true, read, reads]

/-- If the file of the user has the text of a new one, the default settings are in force. -/
theorem run_load_default (env : Environment) (found : d.find files.global = .ok place)
    (held : d.fileAt? place = some defaultText) : (load files env true).run d = (.ok {}, d) := by
  rw [load, FileTask.run_bind, run_loadFile found held ofToml?_defaultText]
  rfl

/-! ### Steps -/

/-- What may happen to the settings files: the service is asked for something, or another program
writes one of them. -/
inductive Step where
  | load (env : Environment) (globalOnly : Bool)
  | path (isGlobal : Bool)
  | init (isGlobal force : Bool)
  | write (isGlobal : Bool) (text : String)

inductive Answer where
  | settings (loaded : Except SettingsError Settings)
  | path (path : String)
  | made (path : Except SettingsError String)
  | written (outcome : Except OsError Unit)

namespace Step

def task (files : SettingsFiles) : Step → FileTask Answer
  | .load env globalOnly => return .settings (← Settings.load files env globalOnly)
  | .path isGlobal => return .path (files.path isGlobal)
  | .init isGlobal force => return .made (← Settings.init files isGlobal force)
  | .write isGlobal text => return .written (← storing (files.path isGlobal) text)

def after (files : SettingsFiles) (d : Disk) (step : Step) : Disk := ((step.task files).run d).2

def afterAll (files : SettingsFiles) (d : Disk) (steps : List Step) : Disk :=
  steps.foldl (after files) d

/-- The step is meant to replace the file of a level. -/
def replaces (level : Bool) : Step → Bool
  | .init isGlobal force => isGlobal == level && force
  | .write isGlobal _ => isGlobal == level
  | _ => false

theorem run_load (files : SettingsFiles) (d : Disk) (env : Environment) (globalOnly : Bool) :
    ((load env globalOnly).task files).run d =
      (.settings ((Settings.load files env globalOnly).run d).1, d) := by
  rw [task, FileTask.run_bind, FileTask.run_pure, leaves_load]

theorem run_init (files : SettingsFiles) (d : Disk) (isGlobal force : Bool) :
    ((init isGlobal force).task files).run d =
      (.made ((Settings.init files isGlobal force).run d).1,
        ((Settings.init files isGlobal force).run d).2) := by
  rw [task, FileTask.run_bind, FileTask.run_pure]

theorem after_write (files : SettingsFiles) (d : Disk) (isGlobal : Bool) (text : String) :
    (write isGlobal text).after files d = ((storing (files.path isGlobal) text).run d).2 := by
  rw [after, task, FileTask.run_bind, FileTask.run_pure]

/-- A step changes at most the file of one level, and that only if it is meant to replace it or
nothing was there. -/
theorem after_cases (files : SettingsFiles) (d : Disk) (step : Step) :
    d.Grows (step.after files d) ∧ (d.SameFiles (step.after files d) ∨
      ∃ isGlobal place, (step.replaces isGlobal = true ∨ d.isThere (files.path isGlobal) = false) ∧
        (step.after files d).find (files.path isGlobal) = .ok place ∧
        ∀ q, q ≠ place → (step.after files d).fileAt? q = d.fileAt? q) := by
  cases step with
  | load env globalOnly =>
    rw [after, run_load]
    exact ⟨.refl d, Or.inl fun _ => rfl⟩
  | path isGlobal => exact ⟨.refl d, Or.inl fun _ => rfl⟩
  | init isGlobal force =>
    rw [after, run_init]
    by_cases free : force = true ∨ d.isThere (files.path isGlobal) = false
    · rw [Settings.run_init free]
      dsimp only
      obtain ⟨grows, same | ⟨place, found, others⟩⟩ :=
        storing_spec (files.path isGlobal) defaultText d
      · exact ⟨grows, Or.inl same⟩
      · refine ⟨grows, Or.inr ⟨isGlobal, place, free.imp_left fun forced => ?_, found, others⟩⟩
        simp [replaces, forced]
    · obtain ⟨unforced, there⟩ := not_or.mp free
      rw [eq_false_of_ne_true unforced,
        run_init_refused (eq_true_of_ne_false there)]
      exact ⟨.refl d, Or.inl fun _ => rfl⟩
  | write isGlobal text =>
    rw [after_write]
    obtain ⟨grows, same | ⟨place, found, others⟩⟩ := storing_spec (files.path isGlobal) text d
    · exact ⟨grows, Or.inl same⟩
    · exact ⟨grows, Or.inr ⟨isGlobal, place, Or.inl (by simp [replaces]), found, others⟩⟩

/-- No step takes a file or a directory away. -/
theorem grows_afterAll (files : SettingsFiles) (steps : List Step) (d : Disk) :
    d.Grows (afterAll files d steps) := by
  induction steps generalizing d with
  | nil => exact .refl d
  | cons step steps ih => exact (after_cases files d step).1.trans (ih (step.after files d))

/-! ### Files that no step writes -/

/-- A step touches no file but those of the two levels. -/
theorem fileAt?_after {step : Step} {q : Place}
    (outside : ∀ isGlobal, (step.after files d).find (files.path isGlobal) ≠ .ok q) :
    (step.after files d).fileAt? q = d.fileAt? q := by
  obtain ⟨-, same | ⟨isGlobal, place, -, found, others⟩⟩ := after_cases files d step
  · exact same q
  · exact others q fun same => outside isGlobal (same ▸ found)

/-- Steps change no files but those that are at the two paths when they are done. -/
theorem fileAt?_afterAll {steps : List Step} {q : Place}
    (outside : ∀ isGlobal, (afterAll files d steps).find (files.path isGlobal) ≠ .ok q) :
    (afterAll files d steps).fileAt? q = d.fileAt? q := by
  induction steps generalizing d with
  | nil => rfl
  | cons step steps ih =>
    have first : (step.after files d).fileAt? q = d.fileAt? q :=
      fileAt?_after fun isGlobal found =>
        outside isGlobal ((grows_afterAll files steps (step.after files d)).find found)
    exact (ih outside).trans first

/-- A step that does not replace the file of a level leaves it as it is. -/
theorem keeps_after (apart : files.Apart) {step : Step}
    (found : d.find (files.path isGlobal) = .ok place) (spares : step.replaces isGlobal = false) :
    (step.after files d).fileAt? place = d.fileAt? place := by
  obtain ⟨grows, same | ⟨level, written, allowed, there, others⟩⟩ := after_cases files d step
  · exact same place
  · refine others place fun same => ?_
    have still := grows.find found
    by_cases own : level = isGlobal
    · subst own
      rw [spares, Disk.isThere_of_find found] at allowed
      simp at allowed
    · rw [Bool.eq_not_of_ne own] at there
      exact apart.ne still there same

/-- A file of settings keeps its text as long as no step is meant to replace it. -/
theorem keeps_afterAll (apart : files.Apart) {steps : List Step}
    (found : d.find (files.path isGlobal) = .ok place)
    (spared : ∀ step ∈ steps, step.replaces isGlobal = false) :
    (afterAll files d steps).fileAt? place = d.fileAt? place := by
  induction steps generalizing d with
  | nil => rfl
  | cons step steps ih =>
    have first := keeps_after apart found (spared step List.mem_cons_self)
    have rest := ih ((after_cases files d step).1.find found) fun s mem =>
      spared s (List.mem_cons_of_mem step mem)
    exact rest.trans first

end Step

/-! ### Nothing is lost -/

/-- What a new settings file of a level leaves behind. -/
structure Renewed (files : SettingsFiles) (isGlobal : Bool) (d d' : Disk) : Prop where
  /-- The file of the level holds the default settings, and no other file is changed. -/
  only : ∃ place, d'.find (files.path isGlobal) = .ok place ∧
    d'.fileAt? place = some defaultText ∧ ∀ q, q ≠ place → d'.fileAt? q = d.fileAt? q
  /-- What is at the path of the other level stays there, and no file there is changed. -/
  other : files.Apart →
    (∀ q, d.find (files.path !isGlobal) = .ok q → d'.find (files.path !isGlobal) = .ok q) ∧
    ∀ q, d'.find (files.path !isGlobal) = .ok q → d'.fileAt? q = d.fileAt? q
  /-- The user's file is loaded as the default settings. -/
  loads : isGlobal = true → ∀ env,
    ((Step.load env true).task files).run d' = (.settings (.ok {}), d')

theorem renewed_of_store (stored : d.store (files.path isGlobal) defaultText = .ok d') :
    Renewed files isGlobal d d' := by
  obtain ⟨grows, place, found, held, others⟩ := Disk.store_spec stored
  refine ⟨⟨place, found, held, others⟩, fun apart => ⟨fun q => grows.find, ?_⟩, ?_⟩
  · intro q there
    exact others q (apart.ne found there).symm
  · rintro rfl env
    rw [Step.run_load, run_load_default env found held]

/-- What each request to the service does on a disk. -/
structure Careful (files : SettingsFiles) (d : Disk) : Prop where
  load : ∀ env globalOnly, ∃ answer,
    ((Step.load env globalOnly).task files).run d = (.settings answer, d)
  path : ∀ isGlobal, ((Step.path isGlobal).task files).run d = (.path (files.path isGlobal), d)
  /-- A file that is there is kept. -/
  refused : ∀ isGlobal, d.isThere (files.path isGlobal) = true →
    ((Step.init isGlobal false).task files).run d =
      (.made (.error (refusal (files.path isGlobal))), d)
  stored : ∀ isGlobal force d', force = true ∨ d.isThere (files.path isGlobal) = false →
    d.store (files.path isGlobal) defaultText = .ok d' →
    ((Step.init isGlobal force).task files).run d = (.made (.ok (files.path isGlobal)), d') ∧
      Renewed files isGlobal d d'
  /-- A new file where nothing was takes the place of no other, unless its path has steps back. -/
  fresh : ∀ isGlobal d' place, d.isThere (files.path isGlobal) = false →
    d.Straight (files.path isGlobal) → d.store (files.path isGlobal) defaultText = .ok d' →
    d'.find (files.path isGlobal) = .ok place → d.fileAt? place = none
  unstored : ∀ isGlobal force e, force = true ∨ d.isThere (files.path isGlobal) = false →
    d.store (files.path isGlobal) defaultText = .error e →
    ∃ d', ((Step.init isGlobal force).task files).run d = (.made (.error (.os e)), d') ∧
      d.SameFiles d'

/-- On every disk each request does what is said of it. -/
theorem careful (files : SettingsFiles) (d : Disk) : Careful files d where
  load env globalOnly := ⟨_, Step.run_load files d env globalOnly⟩
  path isGlobal := rfl
  refused isGlobal there := by rw [Step.run_init, run_init_refused there]
  stored isGlobal force d' free stored := by
    refine ⟨?_, renewed_of_store stored⟩
    rw [Step.run_init, run_init free, run_storing_ok stored]
    rfl
  fresh isGlobal d' place missing straight stored found :=
    Disk.fileAt?_of_missing (Disk.store_spec stored).1 missing straight found
  unstored isGlobal force e free refused := by
    obtain ⟨d', run, -, same⟩ := run_storing_error refused
    refine ⟨d', ?_, same⟩
    rw [Step.run_init, run_init free, run]
    rfl

/-- After any steps from any disk, every request is careful on the disk that they leave. The steps
changed no files but those at the two paths, and a settings file that none of them was meant to
replace is read as before, if the two paths are apart. They are in every environment. -/
theorem files_kept (files : SettingsFiles) (d : Disk) (steps : List Step) :
    Careful files (Step.afterAll files d steps) ∧
    (∀ q, (∀ isGlobal, (Step.afterAll files d steps).find (files.path isGlobal) ≠ .ok q) →
      (Step.afterAll files d steps).fileAt? q = d.fileAt? q) ∧
    (files.Apart → ∀ isGlobal text, (∀ step ∈ steps, step.replaces isGlobal = false) →
      d.read (files.path isGlobal) = .ok text →
      (Step.afterAll files d steps).read (files.path isGlobal) = .ok text) ∧
    ∀ root env, (SettingsFiles.ofEnvironment root env).Apart := by
  refine ⟨careful files _, fun q => Step.fileAt?_afterAll, ?_, SettingsFiles.apart_ofEnvironment⟩
  intro apart isGlobal text spared read
  obtain ⟨place, found, held⟩ := Disk.read_eq_ok_iff.mp read
  have still := (Step.grows_afterAll files steps d).find found
  have kept := Step.keeps_afterAll apart found spared
  exact Disk.read_eq_ok_iff.mpr ⟨place, still, kept.trans held⟩

def ownFiles : SettingsFiles := .ofEnvironment "/w" ⟨[("XDG_CONFIG_HOME", "/c")], none⟩

/-- A project with settings of its own, and a user who has none yet. -/
def ownDisk : Disk :=
  ⟨[(["w", ".fishscope", "config.toml"], "[output]\npretty = true\n")], [], "/w"⟩

/-- Requests for new files at both levels, a user's file that holds no settings, and settings that
cannot be loaded for it and for a variable. -/
def roughSteps : List Step :=
  [.init false false, .load ⟨[("FISHSCOPE_OUTPUT_PRETTY", "maybe")], none⟩ false, .init true false,
    .write true "pretty = ", .load ⟨[], none⟩ false, .path true, .init true false]

theorem files_kept_roughSteps :
    (Step.afterAll ownFiles ownDisk roughSteps).read (ownFiles.path false) =
        .ok "[output]\npretty = true\n" ∧
      (Step.afterAll ownFiles ownDisk roughSteps).read (ownFiles.path true) = .ok "pretty = " ∧
      ∃ d', ((Step.init true true).task ownFiles).run (Step.afterAll ownFiles ownDisk roughSteps) =
          (.made (.ok (ownFiles.path true)), d') ∧
        Renewed ownFiles true (Step.afterAll ownFiles ownDisk roughSteps) d' := by
  obtain ⟨careful, -, kept, apart⟩ := files_kept ownFiles ownDisk roughSteps
  have own : ownDisk.read (ownFiles.path false) = .ok "[output]\npretty = true\n" :=
    eq_ok_of_toOption (by decide +kernel)
  refine ⟨kept (apart _ _) false _ (by decide) own, eq_ok_of_toOption (by decide +kernel), ?_⟩
  have writable : ((Step.afterAll ownFiles ownDisk roughSteps).store (ownFiles.path true)
      defaultText).toOption.isSome = true := by decide +kernel
  obtain ⟨d', outcome⟩ := Option.isSome_iff_exists.mp writable
  exact ⟨d', careful.stored true true d' (Or.inl rfl) (eq_ok_of_toOption outcome)⟩

end Settings

end FishNav
