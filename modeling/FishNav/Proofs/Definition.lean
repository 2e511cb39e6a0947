import FishNav.Definition
import FishNav.Proofs.Symbol.Outline
import FishNav.Proofs.Tree.Enumeration

/-!
# Definitions and references in any tree

A name that is being defined refers to itself, any other one to the latest candidate, and failing
that to the first function of its name (`find?_cases`). So a definition is always a symbol of the
outline (`exists_of_find?`) and has the name of what refers to it (`name_of_find?`).

References are the nodes that satisfy a condition, each of them once and in the order of the text
(`exists_locationsWhere`).
-/
namespace FishNav

/-- A symbol of the outline is named by a node. -/
theorem Node.exists_token {r : Node} {s : Symbol} (member : s ∈ Symbol.flatten r.symbols) :
    ∃ m, Descends r m ∧ s.selection = m.range ∧ s.name = m.text := by
  obtain ⟨n, way, own⟩ := exists_of_mem_flatten member
  rcases symbol?_cases own with ⟨-, name, symbol⟩ | ⟨-, -, rfl⟩
  · have step : name ∈ n.children := List.mem_of_find?_eq_some symbol.named
    exact ⟨name, way.down step, symbol.selection, symbol.text⟩
  · exact ⟨n, way, rfl, rfl⟩

/-! ### What can be seen -/

namespace Scope

theorem mem_inner_iff {s : Symbol} {target : Range} {level : List Symbol} :
    s ∈ inner target level ↔
      ∃ t ∈ level, t.isFunction = true ∧ t.range.contains target = true ∧ s ∈ t.children := by
  simp [inner, and_assoc]

/-- What can be seen from a node is in the outline. -/
theorem mem_flatten_of_mem_levelsAlong {s : Symbol} {target : Range} {forest : List Symbol}
    {above : List Node} {level : List Symbol}
    (inside : ∀ t ∈ level, t ∈ Symbol.flatten forest)
    (member : s ∈ levelsAlong target above level) :
    ∃ t ∈ Symbol.flatten forest, s = t.leaf := by
  induction above generalizing level with
  | nil => cases member
  | cons n above ih =>
    unfold levelsAlong at member
    split at member
    · cases member
    · rcases List.mem_append.mp member with here | deeper
      · obtain ⟨t, listed, rfl⟩ := List.mem_map.mp here
        exact ⟨t, inside t listed, rfl⟩
      · apply ih _ deeper
        intro t lower
        obtain ⟨f, around, -, -, below⟩ := mem_inner_iff.mp lower
        exact Symbol.mem_flatten_of_mem_children (inside f around) below

end Scope

namespace Definition

variable {uri : String} {r n : Node} {s : Symbol} {l : Location}

/-! ### What a node refers to -/

theorem latest?_eq_none_iff {ss : List Symbol} : latest? ss = none ↔ ss = [] := by
  cases ss with
  | nil => simp [latest?]
  | cons s ss =>
    rw [latest?]
    split
    · simp
    · split <;> simp

/-- The latest symbol is one of the list that no other starts behind. -/
theorem latest?_spec {ss : List Symbol} {s : Symbol} (found : latest? ss = some s) :
    s ∈ ss ∧ ∀ t ∈ ss, t.selection.start ≤ s.selection.start := by
  induction ss generalizing s with
  | nil => cases found
  | cons t ss ih =>
    rw [latest?] at found
    split at found
    · next none =>
      obtain rfl := Option.some.inj found
      obtain rfl := latest?_eq_none_iff.mp none
      exact ⟨List.mem_cons_self, by simp⟩
    · next u later =>
      obtain ⟨member, greatest⟩ := ih later
      split at found
      · next order =>
        obtain rfl := Option.some.inj found
        exact ⟨List.mem_cons_of_mem t member, List.forall_mem_cons.mpr ⟨order, greatest⟩⟩
      · next order =>
        obtain rfl := Option.some.inj found
        have behind := le_of_not_ge order
        exact ⟨List.mem_cons_self, List.forall_mem_cons.mpr
          ⟨le_refl _, fun x member => le_trans (greatest x member) behind⟩⟩

/-- The symbols with the name of `n` and of the kind it can refer to that can be seen from `n` and
start before it. -/
def candidates (root n : Node) : List Symbol :=
  (Scope.visible root n).filter fun s =>
    s.name == n.text && (expectedKind? n).all (s.kind == ·) && s.selection.precedes n.range

/-- What `n` refers to without candidates: the first function of its name, if it may be one. -/
def fallback? (root n : Node) : Option Symbol :=
  if expectedKind? n = some .var then none
  else ((Symbol.flatten root.symbols).find? fun s =>
    s.isFunction && s.name == n.text).map Symbol.leaf

/-- The arguments of a function belong to the innermost function around, wherever they stand. -/
theorem find?_of_arguments (arguments : n.text = argumentsName) :
    find? r n = enclosingFunction? r n := by rw [find?, if_pos arguments]

/-- A name that is being defined refers to itself, any other one to the latest candidate. -/
theorem find?_cases {root n : Node} (other : n.text ≠ argumentsName) :
    (∃ s ∈ Symbol.flatten root.symbols, s.selection = n.range ∧ s.name = n.text ∧
        find? root n = some s.leaf) ∨
      (∀ s ∈ Symbol.flatten root.symbols, s.selection = n.range → s.name ≠ n.text) ∧
        find? root n = (latest? (candidates root n)).or (fallback? root n) := by
  unfold find?
  rw [if_neg other]
  dsimp only
  split
  · next own found =>
    have holds := List.find?_some found
    simp only [Bool.and_eq_true, beq_iff_eq] at holds
    exact Or.inl ⟨own, List.mem_of_find?_eq_some found, holds.1, holds.2, rfl⟩
  · next nothing =>
    refine Or.inr ⟨fun s member selection name => ?_, ?_⟩
    · have none := List.find?_eq_none.mp nothing s member
      simp [selection, name] at none
    · rw [candidates, fallback?]
      cases latest? _ <;> rfl

/-- A definition is a symbol of the outline without what is below it. -/
theorem exists_of_find? (refers : find? r n = some s) :
    ∃ t ∈ Symbol.flatten r.symbols, s = t.leaf := by
  by_cases arguments : n.text = argumentsName
  · rw [find?_of_arguments arguments] at refers
    simp only [enclosingFunction?, Option.bind_eq_bind, Option.bind_eq_some_iff, Option.pure_def,
      Option.some.injEq] at refers
    obtain ⟨f, -, name, -, t, found, rfl⟩ := refers
    exact ⟨t, List.mem_of_find?_eq_some found, rfl⟩
  · rcases find?_cases arguments with ⟨t, member, -, -, own⟩ | ⟨-, later⟩
    · exact ⟨t, member, Option.some.inj (refers.symm.trans own)⟩
    · rw [refers, eq_comm, Option.or_eq_some_iff] at later
      rcases later with latest | ⟨-, first⟩
      · have seen := (List.mem_filter.mp (latest?_spec latest).1).1
        exact Scope.mem_flatten_of_mem_levelsAlong (fun t => Symbol.mem_flatten_of_mem) seen
      · unfold fallback? at first
        split at first
        · cases first
        · obtain ⟨t, found, rfl⟩ := Option.map_eq_some_iff.mp first
          exact ⟨t, List.mem_of_find?_eq_some found, rfl⟩

/-- A definition has the name of what refers to it; the arguments of a function refer to the
function. -/
theorem name_of_find? (other : n.text ≠ argumentsName) (refers : find? r n = some s) :
    s.name = n.text := by
  rcases find?_cases other with ⟨t, -, -, name, own⟩ | ⟨-, later⟩
  · rw [Option.some.inj (refers.symm.trans own)]
    exact name
  · rw [refers, eq_comm, Option.or_eq_some_iff] at later
    rcases later with latest | ⟨-, first⟩
    · have holds := (List.mem_filter.mp (latest?_spec latest).1).2
      simp only [Bool.and_eq_true, beq_iff_eq] at holds
      exact holds.1.1
    · unfold fallback? at first
      split at first
      · cases first
      · obtain ⟨t, found, rfl⟩ := Option.map_eq_some_iff.mp first
        have holds := List.find?_some found
        simp only [Bool.and_eq_true, beq_iff_eq] at holds
        exact holds.2

/-! ### References -/

theorem inTextOrder_iff {m n : Node} :
    inTextOrder m n = true ↔ m.start < n.start ∨ m.start = n.start ∧ m.stop ≤ n.stop := by
  simp [inTextOrder]

theorem inTextOrder_trans (l m n : Node) (first : inTextOrder l m = true)
    (second : inTextOrder m n = true) : inTextOrder l n = true := by
  rw [inTextOrder_iff] at *
  rcases first with before | ⟨start, stop⟩
  · rcases second with before' | ⟨start', -⟩
    · exact Or.inl (lt_trans before before')
    · exact Or.inl (start' ▸ before)
  · rcases second with before' | ⟨start', stop'⟩
    · exact Or.inl (start ▸ before')
    · exact Or.inr ⟨start.trans start', le_trans stop stop'⟩

theorem inTextOrder_total (m n : Node) : (inTextOrder m n || inTextOrder n m) = true := by
  rw [Bool.or_eq_true, inTextOrder_iff, inTextOrder_iff]
  rcases lt_trichotomy m.start n.start with before | same | behind
  · exact Or.inl (Or.inl before)
  · rcases le_total m.stop n.stop with shorter | longer
    · exact Or.inl (Or.inr ⟨same, shorter⟩)
    · exact Or.inr (Or.inr ⟨same.symm, longer⟩)
  · exact Or.inr (Or.inl behind)

/-- The nodes that satisfy a condition are listed once each and in the order of the text. -/
theorem exists_locationsWhere (uri : String) (root : Node) (p : Node → Bool) :
    ∃ ms : List Node, ms.Nodup ∧ (∀ m, m ∈ ms ↔ Node.Descends root m ∧ p m = true) ∧
      (ms.Pairwise fun m n => inTextOrder m n = true) ∧
      locationsWhere uri root p = ms.map fun m => ⟨uri, m.range⟩ := by
  have distinct : root.breadthFirst.Nodup := root.breadthFirst_ordered.imp And.left
  refine ⟨(root.breadthFirst.filter p).mergeSort inTextOrder, ?_, fun m => ?_, ?_, rfl⟩
  · rw [(List.mergeSort_perm _ _).nodup_iff]
    exact distinct.filter p
  · rw [List.mem_mergeSort, List.mem_filter, Node.mem_breadthFirst_iff]
  · exact List.pairwise_mergeSort inTextOrder_trans inTextOrder_total _

/-- All nodes that satisfy the condition are listed, and no others. -/
theorem mem_locationsWhere_iff {p : Node → Bool} :
    l ∈ locationsWhere uri r p ↔
      ∃ m, Node.Descends r m ∧ p m = true ∧ l = ⟨uri, m.range⟩ := by
  obtain ⟨ms, -, members, -, all⟩ := exists_locationsWhere uri r p
  simp only [all, List.mem_map, members, and_assoc, eq_comm]

section

variable {name : Node} (other : n.text ≠ argumentsName) (refers : find? r n = some s)
  (found : s.node? r = some name)
include other refers found

/-- The references to a variable. -/
theorem references_of_variable (kind : s.kind = .var) :
    references uri r n = locationsWhere uri r fun m =>
      m.text == s.name &&
        (m.isVariable && sameScope m.definitionScope? name.definitionScope?) := by
  rw [references, if_neg other, refers]
  dsimp only
  rw [found, kind]

/-- The references to a function. -/
theorem references_of_function (kind : s.kind = .function) :
    references uri r n = locationsWhere uri r fun m =>
      m.text == s.name && (m.isCommandName || m.isFunctionName) := by
  rw [references, if_neg other, refers]
  dsimp only
  rw [found, kind]

end

/-- The references to the arguments of a function. -/
theorem references_of_arguments {f : Node} (arguments : n.text = argumentsName)
    (around : n.findAbove? Node.isFunctionDefinition = some f) :
    references uri r n = locationsWhere uri r fun m =>
      m.kind == .variableName && m.text == argumentsName &&
        sameScope m.definitionScope? (some f) := by
  rw [references, if_pos arguments, argumentReferences, around]

/-- Outside of all functions the arguments refer to nothing. -/
theorem arguments_of_none (arguments : n.text = argumentsName)
    (outside : n.findAbove? Node.isFunctionDefinition = none) :
    find? r n = none ∧ references uri r n = [] := by
  rw [find?_of_arguments arguments, enclosingFunction?, references, if_pos arguments,
    argumentReferences, outside]
  exact ⟨rfl, rfl⟩

/-- Every reference is a node with the text of the one that was asked about. -/
theorem exists_of_mem_references (member : l ∈ references uri r n) :
    ∃ m, Node.Descends r m ∧ m.text = n.text ∧ l = ⟨uri, m.range⟩ := by
  unfold references at member
  split at member
  · next arguments =>
    unfold argumentReferences at member
    split at member
    · cases member
    · obtain ⟨m, way, holds, rfl⟩ := mem_locationsWhere_iff.mp member
      simp only [Bool.and_eq_true, beq_iff_eq] at holds
      exact ⟨m, way, holds.1.2.trans arguments.symm, rfl⟩
  · next other =>
    split at member
    · cases member
    · next s refers =>
      split at member
      · cases member
      · obtain ⟨m, way, holds, rfl⟩ := mem_locationsWhere_iff.mp member
        simp only [Bool.and_eq_true, beq_iff_eq] at holds
        exact ⟨m, way, holds.1.trans (name_of_find? other refers), rfl⟩

end Definition

end FishNav
