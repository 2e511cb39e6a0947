import FishNav.Command.Run
import FishNav.Proofs.File

/-!
# Runs that ask for symbols

The program leaves the disk as it is when it is asked for the symbols of a dump. If all of them can
be printed it prints a list (`run_symbols`), and otherwise it stops and prints nothing
(`run_symbols_eq_stopped_iff`).
-/
namespace FishNav.CommandLine

/-- A dump that is there and holds a tree can be opened. -/
theorem run_openDump {c : Context} {path text : String} {path? : Option String} {d : Disk}
    {t : Tree} (there : d.read path = .ok text) (loaded : Tree.ofJson text = .ok t) :
    (openDump c path path?).run d =
      (.ok
        { uri := Uri.ofPath c.cwd (path?.getD path)
          file := Path.relativeTo c.cwd (Path.join c.cwd (path?.getD path))
          tree := t }, d) := by
  unfold openDump
  rw [FileTask.run_bind]
  simp only [FileTask.run, there, loaded]
  rfl

/-- A request is carried out with the settings that are there, or with the usual ones. -/
theorem run_request (cwd : String) (env : Environment) {args : List String} {pretty : Bool}
    {request : Request} (d : Disk) (parsed : parse args = .ok ⟨pretty, request⟩) :
    ∃ c : Context, c.cwd = cwd ∧ (run cwd env args).run d = (carryOut c request).run d := by
  unfold run
  rw [parsed]
  simp only
  rw [FileTask.run_bind, Settings.leaves_load]
  exact ⟨_, rfl, rfl⟩

/-- The outcome of a run that prints a list of symbols and their number. -/
def shown (pretty : Bool) (vs : List Json) : Outcome where
  exit := 0
  output := Report.print pretty
    (Report.success (.obj [("count", .nat vs.length), ("symbols", .arr vs)]))

section

variable {args : List String} {pretty : Bool} {path text : String} {path? : Option String}
  {kind? : Option SymbolKind} {flat : Bool} {d : Disk} {t : Tree} {r : Node}

/-- Asked for symbols, the program prints those to be listed, if they can be printed, and changes
nothing on the disk. -/
theorem run_symbols (cwd : String) (env : Environment)
    (parsed : parse args = .ok ⟨pretty, .symbols path path? kind? flat⟩)
    (there : d.read path = .ok text) (loaded : Tree.ofJson text = .ok t)
    (top : t.root? = some r) :
    ∃ pretty', (run cwd env args).run d =
      ((Report.symbols? (Path.relativeTo cwd (Path.join cwd (path?.getD path)))
        (listed kind? flat r.symbols)).elim stopped (shown pretty'), d) := by
  obtain ⟨c, rfl, carried⟩ := run_request cwd env d parsed
  refine ⟨c.pretty, ?_⟩
  rw [carried]
  unfold carryOut
  rw [FileTask.run_bind, run_openDump there loaded]
  simp only [top, Option.map_some, Option.getD_some]
  unfold Report.symbolList?
  cases Report.symbols? _ _ <;> rfl

/-- A list that was printed can be told from a run that stopped, by its exit code. -/
theorem shown_ne_stopped (pretty : Bool) (vs : List Json) : shown pretty vs ≠ stopped := by
  intro same
  have exits : 0 = 101 := congrArg Outcome.exit same
  cases exits

/-- The listing of symbols stops exactly if one of the listed symbols cannot be printed. -/
theorem run_symbols_eq_stopped_iff (cwd : String) (env : Environment)
    (parsed : parse args = .ok ⟨pretty, .symbols path path? kind? flat⟩)
    (there : d.read path = .ok text) (loaded : Tree.ofJson text = .ok t)
    (top : t.root? = some r) :
    (run cwd env args).run d = (stopped, d) ↔
      Report.symbols? (Path.relativeTo cwd (Path.join cwd (path?.getD path)))
        (listed kind? flat r.symbols) = none := by
  obtain ⟨pretty', printed⟩ := run_symbols cwd env parsed there loaded top
  rw [printed]
  cases Report.symbols? _ _ with
  | none => exact iff_of_true rfl rfl
  | some vs =>
    refine iff_of_false (fun same => ?_) (by simp)
    exact shown_ne_stopped pretty' vs (Prod.mk.inj same).1

end

end FishNav.CommandLine
