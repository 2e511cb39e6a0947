import FishNav.Settings.Service

/-!
# Tasks on a disk

One task after another is run on the disk that the first one leaves (`FileTask.run_bind`). A task
that only asks leaves the disk as it was, and so do such tasks one after another; loading the
settings is one of them (`Settings.leaves_load`).
-/
namespace FishNav

theorem eq_ok_of_toOption {ε α : Type} {outcome : Except ε α} {a : α}
    (gives : outcome.toOption = some a) : outcome = .ok a := by
  cases outcome with
  | error e => cases gives
  | ok b => exact congrArg _ (Option.some.inj gives)

namespace FileTask

variable {α β : Type}

theorem run_bind (task : FileTask α) (next : α → FileTask β) (d : Disk) :
    (task >>= next).run d = (next (task.run d).1).run (task.run d).2 := by
  change (task.bind next).run d = _
  induction task generalizing d with
  | done a => rfl
  | read path rest ih => exact ih (d.read path) d
  | isThere path rest ih => exact ih (d.isThere path) d
  | isFile path rest ih => exact ih (d.isFile path) d
  | canonical path rest ih => exact ih (d.canonical? path) d
  | makeDirectories path rest ih => exact ih _ _
  | write path text rest ih => exact ih _ _

theorem run_pure (a : α) (d : Disk) : (pure a : FileTask α).run d = (a, d) := rfl

/-- The task changes nothing on any disk. -/
def Leaves (task : FileTask α) : Prop := ∀ d, (task.run d).2 = d

theorem leaves_pure (a : α) : (pure a : FileTask α).Leaves := fun _ => rfl

/-- Work that changes nothing in its parts changes nothing as a whole. -/
theorem Leaves.bind {task : FileTask α} {next : α → FileTask β} (first : task.Leaves)
    (rest : ∀ a, (next a).Leaves) : (task >>= next).Leaves := by
  intro d
  rw [run_bind, rest _ _, first d]

end FileTask

namespace Settings

theorem leaves_loadFile (path : String) : (loadFile path).Leaves := by
  intro d
  unfold loadFile
  simp only [FileTask.run]
  split
  · simp only [FileTask.run]
    split
    · rfl
    · split <;> rfl
  · rfl

/-- Loading settings leaves the disk as it is, whether it succeeds or not. -/
theorem leaves_load (files : SettingsFiles) (env : Environment) (globalOnly : Bool) :
    (load files env globalOnly).Leaves := by
  unfold load
  apply (leaves_loadFile files.global).bind
  intro base
  split
  · exact FileTask.leaves_pure _
  · split
    · exact FileTask.leaves_pure _
    · apply (leaves_loadFile files.project).bind
      intro upper
      split <;> exact FileTask.leaves_pure _

end Settings

end FishNav
