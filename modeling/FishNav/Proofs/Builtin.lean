import FishNav.Builtin
import FishNav.Settings.Basic

/-!
# Builtins add up

The table of builtins is in order, and in a table that is in order the search by halves finds the
texts that are there and no others (`Text.Ascending.isListed_iff`). Settings that are laid over
others add their builtins to the ones below. Names that are there stay where they are, new ones
follow in the order in which they first come up (`addNames_eq`), and of three layers any two
neighbours may be put together first (`addNames_assoc`).
-/
namespace FishNav

/-! ### Search by halves -/

namespace Text

variable {s t text : String} {table : List String} {i : Nat}

/-- Each text comes before all that follow it. -/
def Ascending (table : List String) : Prop := table.Pairwise fun s t => precedes s t = true

instance (table : List String) : Decidable (Ascending table) :=
  inferInstanceAs (Decidable (table.Pairwise _))

theorem precedes_asymm (before : precedes s t = true) : precedes t s = false := by
  rw [precedes, decide_eq_false_iff_not]
  exact List.lt_asymm (of_decide_eq_true before)

theorem precedes_irrefl (s : String) : precedes s s = false := by
  rw [precedes, decide_eq_false_iff_not]
  exact List.lt_irrefl _

theorem Ascending.sublist {part : List String} (ascending : Ascending table)
    (within : part.Sublist table) : Ascending part :=
  List.Pairwise.sublist within ascending

/-- A table around one of its entries, as the search takes it apart. -/
theorem eq_take_append (bound : i < table.length) :
    table = table.take i ++ table[i] :: table.drop (i + 1) := by
  rw [← List.drop_eq_getElem_cons bound, List.take_append_drop]

/-- A text that comes before an entry of the table can only stand in front of it. -/
theorem Ascending.mem_take (ascending : Ascending table) (bound : i < table.length)
    (before : precedes text table[i] = true) (member : text ∈ table) : text ∈ table.take i := by
  rw [Ascending, eq_take_append bound] at ascending
  obtain ⟨-, behind, -⟩ := List.pairwise_append.mp ascending
  rw [eq_take_append bound, List.mem_append, List.mem_cons] at member
  rcases member with front | same | back
  · exact front
  · rw [same, precedes_irrefl] at before
    cases before
  · have after := List.rel_of_pairwise_cons behind back
    rw [precedes_asymm before] at after
    cases after

/-- A text that does not come before an entry of the table cannot stand in front of it. -/
theorem Ascending.mem_drop (ascending : Ascending table) (bound : i < table.length)
    (notBefore : precedes text table[i] = false) (member : text ∈ table) :
    text ∈ table.drop i := by
  rw [Ascending, eq_take_append bound] at ascending
  obtain ⟨-, -, across⟩ := List.pairwise_append.mp ascending
  rw [← List.take_append_drop i table, List.mem_append] at member
  rcases member with front | back
  · have before := across text front table[i] List.mem_cons_self
    rw [notBefore] at before
    cases before
  · exact back

/-- The search ends with one text at most. -/
theorem length_narrow_le (text : String) (table : List String) :
    (narrow text table).length ≤ 1 := by
  fun_induction narrow text table with
  | case1 table short => exact short
  | case2 table long half before ih => exact ih
  | case3 table long half notBefore ih => exact ih

theorem narrow_sublist (text : String) (table : List String) :
    (narrow text table).Sublist table := by
  fun_induction narrow text table with
  | case1 table short => exact .refl table
  | case2 table long half before ih => exact ih.trans (List.take_sublist _ table)
  | case3 table long half notBefore ih => exact ih.trans (List.drop_sublist _ table)

/-- No step loses the text. -/
theorem Ascending.mem_narrow (ascending : Ascending table) (member : text ∈ table) :
    text ∈ narrow text table := by
  fun_induction narrow text table with
  | case1 table short => exact member
  | case2 table long half before ih =>
    have bound : half < table.length := by omega
    rw [List.getElem?_eq_getElem bound, Option.any_some] at before
    -- An odd table keeps its middle too, although the text cannot be there.
    have within : half ≤ table.length - half := by omega
    apply ih (ascending.sublist (List.take_sublist _ table))
    exact (List.take_subset_take_left table within) (ascending.mem_take bound before member)
  | case3 table long half notBefore ih =>
    have bound : half < table.length := by omega
    rw [List.getElem?_eq_getElem bound, Option.any_some, Bool.not_eq_true] at notBefore
    apply ih (ascending.sublist (List.drop_sublist _ table))
    exact ascending.mem_drop bound notBefore member

/-- In a table that is in order the search finds all texts of the table and no others. -/
theorem Ascending.isListed_iff (ascending : Ascending table) :
    isListed table text = true ↔ text ∈ table := by
  rw [isListed, beq_iff_eq]
  constructor
  · intro only
    exact (narrow_sublist text table).subset (only ▸ List.mem_singleton_self text)
  · intro member
    have kept := ascending.mem_narrow member
    have short := length_narrow_le text table
    obtain ⟨one, only⟩ := List.length_eq_one_iff.mp
      (Nat.le_antisymm short (List.length_pos_of_mem kept))
    rw [only, List.mem_singleton] at kept
    rw [only, kept]

-- Without the order the search goes astray.
example : isListed ["b", "a"] "b" = false := by decide +kernel

end Text

/-- The table of builtins is in the order that the search relies on. -/
theorem Builtin.ascending_names : Text.Ascending names := by decide +kernel

/-- The search by halves answers as a look through the whole table would. -/
theorem Builtin.isBuiltin_iff {extra : List String} {name : String} :
    isBuiltin extra name = true ↔ name ∈ names ∨ name ∈ extra := by
  rw [isBuiltin, Bool.or_eq_true, ascending_names.isListed_iff, List.contains_iff_mem]

namespace Settings

/-! ### Adding names -/

variable {names more : List String} {name : String}

theorem addNames_cons (names : List String) (name : String) (more : List String) :
    addNames names (name :: more) = addNames (addNames names [name]) more := rfl

theorem addNames_append (names more rest : List String) :
    addNames names (more ++ rest) = addNames (addNames names more) rest := by
  induction more generalizing names with
  | nil => rfl
  | cons n more ih => rw [List.cons_append, addNames_cons, ih, ← addNames_cons]

theorem addNames_known (known : name ∈ names) : addNames names [name] = names := by
  simp [addNames, known]

theorem addNames_new (new : name ∉ names) : addNames names [name] = names ++ [name] := by
  simp [addNames, new]

/-- The names that are there stay as they are, and the new ones follow, each where it first comes
up. -/
theorem addNames_eq (names more : List String) :
    addNames names more = names ++ (more.filter (· ∉ names)).eraseDups := by
  induction more generalizing names with
  | nil => simp [addNames]
  | cons n more ih =>
    rw [addNames_cons]
    by_cases known : n ∈ names
    · rw [addNames_known known, ih, List.filter_cons_of_neg (by simpa using known)]
    · have rest : (more.filter (· ∉ names)).filter (fun m => !m == n) =
          more.filter (· ∉ names ++ [n]) := by
        rw [List.filter_filter]
        refine List.filter_congr fun m _ => ?_
        by_cases same : m = n <;> simp [same]
      rw [addNames_new known, ih, List.filter_cons_of_pos (by simpa using known),
        List.eraseDups_cons, rest, List.append_assoc, List.singleton_append]

example : addNames ["fisher", "fisher"] ["nvm", "fisher", "z", "nvm"] =
    ["fisher", "fisher", "nvm", "z"] := by decide

theorem mem_addNames : name ∈ addNames names more ↔ name ∈ names ∨ name ∈ more := by
  rw [addNames_eq, List.mem_append, List.mem_eraseDups, List.mem_filter, decide_eq_true_iff]
  by_cases known : name ∈ names <;> simp [known]

/-- Adding names that are there already changes nothing, not even the order. -/
theorem addNames_of_subset (known : more ⊆ names) : addNames names more = names := by
  have nothing : more.filter (· ∉ names) = [] := by
    rw [List.filter_eq_nil_iff]
    intro name member
    simpa using known member
  rw [addNames_eq, nothing, List.eraseDups_nil, List.append_nil]

/-- To add a name to the upper names is to add it to all. -/
theorem addNames_step (base upper : List String) (name : String) :
    addNames base (addNames upper [name]) = addNames (addNames base upper) [name] := by
  by_cases known : name ∈ upper
  · rw [addNames_known known, addNames_known (mem_addNames.mpr (Or.inr known))]
  · rw [addNames_new known, addNames_append]

/-- Names may be added layer by layer or all at once: they come up in the same order. -/
theorem addNames_assoc (base upper top : List String) :
    addNames (addNames base upper) top = addNames base (addNames upper top) := by
  induction top generalizing upper with
  | nil => rfl
  | cons n top ih =>
    calc
      addNames (addNames base upper) (n :: top)
        = addNames (addNames (addNames base upper) [n]) top := addNames_cons _ _ _
      _ = addNames (addNames base (addNames upper [n])) top := by rw [addNames_step]
      _ = addNames base (addNames (addNames upper [n]) top) := ih _
      _ = addNames base (addNames upper (n :: top)) := by rw [← addNames_cons]

/-! ### Layers -/

/-- Settings laid over others keep the builtins of those and add the ones that are new, each once
and in their order. A name then counts as a builtin exactly if the table, the lower settings or the
upper ones have it. To lay the same settings over once more changes nothing, and of three layers it
does not matter which two are put together first. -/
theorem overlay_builtins (base upper : Settings) :
    (base.overlay upper).extraBuiltins =
        base.extraBuiltins ++
          (upper.extraBuiltins.filter (· ∉ base.extraBuiltins)).eraseDups ∧
      (∀ name, Builtin.isBuiltin (base.overlay upper).extraBuiltins name = true ↔
        name ∈ Builtin.names ∨ name ∈ base.extraBuiltins ∨ name ∈ upper.extraBuiltins) ∧
      (base.overlay upper).overlay upper = base.overlay upper ∧
      ∀ top : Settings, (base.overlay upper).overlay top = base.overlay (upper.overlay top) := by
  refine ⟨addNames_eq _ _, fun name => ?_, ?_, fun top => ?_⟩
  · rw [Builtin.isBuiltin_iff, overlay, mem_addNames]
  · have known : upper.extraBuiltins ⊆ addNames base.extraBuiltins upper.extraBuiltins :=
      fun _ member => mem_addNames.mpr (Or.inr member)
    simp only [overlay, addNames_of_subset known]
  · simp only [overlay, addNames_assoc]

end Settings

end FishNav
