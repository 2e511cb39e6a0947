import FishNav.Builtin
import FishNav.Navigator
import FishNav.Proofs.Script.Tree

/-!
# Answers about one cursor

Where a name is defined and what kind of place that is are two questions, asked one by one. The
answers fit together (`Agrees`) at every cursor but those on an argument of `source` or `.`: its
definition is the file that it names, while its kind is that of any other word. `agrees_iff` says
what has to come together there for the answers to fit all the same, and
`not_agrees_source_argument` that it does not always.
-/
namespace FishNav

/-- Without locations known before, the kind of a place comes with at most one location. -/
theorem Definition.origin_cases (isBuiltin : String → Bool) (uri : String) (root n : Node) :
    origin isBuiltin uri root n [] = (.nowhere, []) ∨
      origin isBuiltin uri root n [] = (.file, []) ∨
      ∃ s, find? root n = some s ∧
        origin isBuiltin uri root n [] = (.document, [⟨uri, s.selection⟩]) := by
  unfold origin locations
  by_cases builtin : isBuiltin n.text = true
  · exact Or.inl (if_pos builtin)
  · rw [if_neg builtin]
    cases refers : find? root n with
    | some s => exact Or.inr (Or.inr ⟨s, rfl, rfl⟩)
    | none =>
      by_cases command : n.isCommandName = true
      · simp [command]
      · simp [command]

/-- Only commands may be defined by a file. -/
theorem Definition.origin_ne_file {n : Node} (plain : n.isCommandName = false)
    (isBuiltin : String → Bool) (uri : String) (root : Node) (known : List Location) :
    (origin isBuiltin uri root n known).1 ≠ .file := by
  unfold origin
  split
  · simp
  · dsimp only
    split <;> simp [plain]

namespace Navigator

/-- The locations at a cursor are as their kind says: there are none, there is one in the document
itself, or they are in the file behind the node at the cursor. -/
structure Agrees (v : Navigator) (uri : String) (p : Position) : Prop where
  nowhere : v.origin uri p = .nowhere → v.definitions uri p = []
  document : v.origin uri p = .document → ∃ range, v.definitions uri p = [⟨uri, range⟩]
  file : v.origin uri p = .file → ∀ l ∈ v.definitions uri p,
    ∃ root n, v.locate? uri p = some (root, n) ∧ v.fileLocation? uri n = some l

variable {v : Navigator} {uri : String} {p : Position} {root n : Node}

theorem definitions_of_sourceArgument (found : v.locate? uri p = some (root, n))
    (argument : isSourceArgument n = true) :
    v.definitions uri p = (v.fileLocation? uri n).toList := by
  rw [definitions, found]
  exact if_pos argument

/-- What is said about a cursor on a node that is not in the place of a command or a file. -/
theorem definitions_of_plain (found : v.locate? uri p = some (root, n))
    (command : n.isCommandName = false) (argument : isSourceArgument n = false) :
    v.definitions uri p = (Definition.origin v.isBuiltin uri root n []).2 := by
  have here := Definition.origin_ne_file command v.isBuiltin uri root []
  rcases Definition.origin_cases v.isBuiltin uri root n with same | same | ⟨s, -, same⟩
  · simp [definitions, found, argument, same]
  · rw [same] at here
    exact absurd rfl here
  · simp [definitions, found, argument, same]

/-- Away from the arguments of `source` the answers fit together. -/
theorem agrees_of_not_sourceArgument
    (ordinary : ∀ root n, v.locate? uri p = some (root, n) → isSourceArgument n = false) :
    Agrees v uri p := by
  cases found : v.locate? uri p with
  | none => constructor <;> simp [origin, definitions, found]
  | some place =>
    obtain ⟨root, n⟩ := place
    have argument := ordinary root n found
    rcases Definition.origin_cases v.isBuiltin uri root n with same | same | ⟨s, -, same⟩
    · have kind : v.origin uri p = .nowhere := by simp [origin, found, same]
      have none : v.definitions uri p = [] := by simp [definitions, found, argument, same]
      exact ⟨fun _ => none, by simp [kind], by simp [kind]⟩
    · have kind : v.origin uri p = .file := by simp [origin, found, same]
      have files : v.definitions uri p = (v.fileLocation? uri n).toList := by
        simp [definitions, found, argument, same]
      refine ⟨by simp [kind], by simp [kind], fun _ l member => ?_⟩
      rw [files, Option.mem_toList] at member
      exact ⟨root, n, found, member⟩
    · have kind : v.origin uri p = .document := by simp [origin, found, same]
      have one : v.definitions uri p = [⟨uri, s.selection⟩] := by
        simp [definitions, found, argument, same]
      exact ⟨by simp [kind], fun _ => ⟨_, one⟩, by simp [kind]⟩

/-- The answers at a cursor fit together unless it is on an argument of `source` whose file does
not fit what is said about the word. -/
theorem agrees_iff (v : Navigator) (uri : String) (p : Position) :
    Agrees v uri p ↔
      ∀ root n, v.locate? uri p = some (root, n) → isSourceArgument n = true →
        match v.origin uri p with
        | .nowhere => v.fileLocation? uri n = none
        | .document => ∃ l, v.fileLocation? uri n = some l ∧ l.uri = uri
        | .file => True := by
  constructor
  · intro agrees root n found argument
    have files := definitions_of_sourceArgument found argument
    cases kind : v.origin uri p with
    | nowhere =>
      have none := agrees.nowhere kind
      rwa [files, Option.toList_eq_nil_iff] at none
    | document =>
      obtain ⟨range, one⟩ := agrees.document kind
      rw [files, Option.toList_eq_singleton_iff] at one
      exact ⟨_, one, rfl⟩
    | file => trivial
  · intro fits
    by_cases exceptional : ∃ root n, v.locate? uri p = some (root, n) ∧ isSourceArgument n = true
    · obtain ⟨root, n, found, argument⟩ := exceptional
      have files := definitions_of_sourceArgument found argument
      have fit := fits root n found argument
      refine ⟨fun kind => ?_, fun kind => ?_, fun _ l member => ?_⟩
      · rw [kind] at fit
        rw [files, fit, Option.toList_none]
      · rw [kind] at fit
        obtain ⟨l, file, same⟩ := fit
        exact ⟨l.range, by rw [files, file, Option.toList_some, ← same]⟩
      · rw [files, Option.mem_toList] at member
        exact ⟨root, n, found, member⟩
    · apply agrees_of_not_sourceArgument
      intro root n found
      exact Bool.eq_false_iff.mpr fun argument => exceptional ⟨root, n, found, argument⟩

/-- A file that is sourced is found, and yet it is said to be nowhere. -/
theorem not_agrees_source_argument :
    ¬ Agrees ⟨Documents.empty.insert "file:///doc/main.fish" (Script.tree "source lib.fish"),
      Builtin.isBuiltin [], SearchPath.resolve [] fun _ => false, "/"⟩
      "file:///doc/main.fish" ⟨0, 9⟩ := by
  intro agrees
  have none := agrees.nowhere (by decide +kernel)
  revert none
  decide +kernel

end Navigator

end FishNav
