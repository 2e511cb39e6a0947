import FishNav.Proofs.Navigator
import FishNav.Proofs.Script.Names

/-!
# Texts of ranges

The range of a node of a script, looked up in the document that holds the script, gives the text of
the node; so the locations of definitions and references give the names that stand there
(`Navigator.text?_tokens`).
-/
namespace FishNav

/-- A document that was put in is the one that is found. -/
theorem Documents.get?_insert (d : Documents) (uri : String) (t : Tree) :
    (d.insert uri t).get? uri = some t := by
  unfold insert get?
  rw [List.find?_cons_of_pos (by simp)]
  rfl

namespace Navigator

open Node (Descends)

/-- At `l` in the script stands the name `word`, and it is the text that is read there. -/
def Shows (v : Navigator) (source uri : String) (l : Location) (word : String) : Prop :=
  ∃ m ∈ (Script.tree source).nodes, l = ⟨uri, m.range⟩ ∧ m.text = word ∧ v.text? l = some word

section

variable {v : Navigator} {uri source : String} {p : Position} {r n m : Node} {l : Location}
  (stored : v.documents.get? uri = some (Script.tree source))
include stored

/-- The text of the range of a node is the text of the node. -/
theorem text?_of_descends (inside : Descends (Script.root source) m) :
    v.documents.text? uri m.range = some m.text := by
  have same : (Script.tree source).source = source :=
    (TreeDump.root?_of_load (Script.load_dump source)).1
  unfold Documents.text?
  rw [stored, Option.bind_some, same, Script.inRange?_range inside, Option.map_some,
    String.ofList_toList]

theorem shows_of_descends (inside : Descends (Script.root source) m) :
    v.Shows source uri ⟨uri, m.range⟩ m.text :=
  ⟨m, Script.mem_nodes_iff.mpr inside, rfl, rfl, text?_of_descends stored inside⟩

theorem root_of_locate? (found : v.locate? uri p = some (r, n)) : Script.root source = r := by
  unfold locate? at found
  simp only [Option.bind_eq_bind, Option.bind_eq_some_iff, Option.pure_def, Option.some.injEq,
    Prod.mk.injEq] at found
  obtain ⟨t, known, r', top, n', -, rfl, -⟩ := found
  obtain rfl := Option.some.inj (stored.symm.trans known)
  exact Option.some.inj ((Script.root?_tree source).symm.trans top)

/-- Each place that is listed as a use has the text of the name that was asked for. -/
theorem shows_reference (member : l ∈ v.references uri p) :
    ∃ r n, v.locate? uri p = some (r, n) ∧ v.Shows source uri l n.text := by
  unfold references at member
  split at member
  · cases member
  · next r n found =>
    obtain rfl := root_of_locate? stored found
    obtain ⟨m, way, same, rfl⟩ := Definition.exists_of_mem_references member
    exact ⟨_, n, found, same ▸ shows_of_descends stored way⟩

/-- A definition in the document itself shows its name. -/
theorem shows_definition {s : Symbol} (found : v.locate? uri p = some (r, n))
    (refers : Definition.find? r n = some s) : v.Shows source uri ⟨uri, s.selection⟩ s.name := by
  obtain rfl := root_of_locate? stored found
  obtain ⟨t, member, rfl⟩ := Definition.exists_of_find? refers
  obtain ⟨m, way, selection, name⟩ := Node.exists_token member
  have shown := shows_of_descends stored way
  rwa [← selection, ← name] at shown

end

/-- In a document that holds a script, the range of every node has the text of the node. A reference
shows the text at the cursor, and a definition, unless it is a file, shows the name that is
defined. -/
theorem text?_tokens (v : Navigator) (uri source : String)
    (stored : v.documents.get? uri = some (Script.tree source)) :
    (∀ n ∈ (Script.tree source).nodes, v.documents.text? uri n.range = some n.text) ∧
      (∀ p, ∀ l ∈ v.references uri p,
        ∃ r n, v.locate? uri p = some (r, n) ∧ v.Shows source uri l n.text) ∧
      ∀ p, ∀ l ∈ v.definitions uri p, ∃ r n, v.locate? uri p = some (r, n) ∧
        ((isSourceArgument n = true ∨ v.origin uri p = .file) ∧ v.fileLocation? uri n = some l ∨
          ∃ s, Definition.find? r n = some s ∧ v.Shows source uri l s.name) := by
  refine ⟨?_, fun p l member => shows_reference stored member, ?_⟩
  · intro n member
    exact text?_of_descends stored (Script.mem_nodes_iff.mp member)
  · intro p l member
    cases found : v.locate? uri p with
    | none => simp [definitions, found] at member
    | some place =>
      obtain ⟨r, n⟩ := place
      refine ⟨r, n, rfl, ?_⟩
      cases argument : isSourceArgument n with
      | true =>
        rw [definitions_of_sourceArgument found argument, Option.mem_toList] at member
        exact Or.inl ⟨Or.inl rfl, member⟩
      | false =>
        rcases Definition.origin_cases v.isBuiltin uri r n with none | file | ⟨s, refers, here⟩
        · simp [definitions, found, argument, none] at member
        · have place : v.fileLocation? uri n = some l := by
            simpa [definitions, found, argument, file] using member
          exact Or.inl ⟨Or.inr (by simp [origin, found, file]), place⟩
        · have only : l = ⟨uri, s.selection⟩ := by
            simpa [definitions, found, argument, here] using member
          exact Or.inr ⟨s, refers, only ▸ shows_definition stored found refers⟩

/-- A condition is missing, so a newline stands in its place; the variable behind it is set to a
string with characters of two bytes and an empty line in it. -/
def newlineScript : String := "set x 'é\n\nü'\nif\necho $x"

def newlineNavigator : Navigator :=
  ⟨Documents.empty.insert "file:///a" (Script.tree newlineScript), Builtin.isBuiltin [],
    fun _ _ => none, "/"⟩

/-- A token that spans a line break, and a definition that is found from behind it. -/
theorem text?_tokens_newline :
    newlineNavigator.documents.get? "file:///a" = some (Script.tree newlineScript) ∧
      (∃ n ∈ (Script.tree newlineScript).nodes, n.kind = .error ∧
        n.range = .ofCoordinates 3 2 4 0 ∧
        newlineNavigator.documents.text? "file:///a" n.range = some "\n") ∧
      ⟨"file:///a", .ofCoordinates 0 4 0 5⟩ ∈ newlineNavigator.definitions "file:///a" ⟨4, 6⟩ ∧
      newlineNavigator.text? ⟨"file:///a", .ofCoordinates 0 4 0 5⟩ = some "x" := by
  have stored : newlineNavigator.documents.get? "file:///a" = some (Script.tree newlineScript) :=
    Documents.get?_insert .empty _ _
  obtain ⟨texts, -, definitions⟩ := text?_tokens newlineNavigator "file:///a" newlineScript stored
  have error : ((Script.tree newlineScript).nodes.any fun n =>
      n.kind == .error && n.range == .ofCoordinates 3 2 4 0 && n.text == "\n") = true := by
    decide +kernel
  have names : ((Script.tree newlineScript).nodes.all fun n =>
      n.range != .ofCoordinates 0 4 0 5 || n.text == "x") = true := by decide +kernel
  have found : ⟨"file:///a", .ofCoordinates 0 4 0 5⟩ ∈
      newlineNavigator.definitions "file:///a" ⟨4, 6⟩ := by decide +kernel
  refine ⟨stored, ?_, found, ?_⟩
  · obtain ⟨n, member, shape⟩ := List.any_eq_true.mp error
    simp only [Bool.and_eq_true, beq_iff_eq] at shape
    exact ⟨n, member, shape.1.1, shape.1.2, shape.2 ▸ texts n member⟩
  · obtain ⟨r, n, -, ⟨-, file⟩ | ⟨s, -, m, member, place, name, shown⟩⟩ := definitions _ _ found
    · cases file
    · have range : m.range = .ofCoordinates 0 4 0 5 := (congrArg Location.range place).symm
      have word := List.all_eq_true.mp names m member
      simp only [range, bne_self_eq_false, Bool.false_or, beq_iff_eq] at word
      rwa [← name, word] at shown

end Navigator

end FishNav
