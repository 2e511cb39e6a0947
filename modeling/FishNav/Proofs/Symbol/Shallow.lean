import FishNav.Proofs.Symbol.Outline

/-!
# The shallow outline

The shallow outline shows the same symbols as the outline, in the same order and under the same
top-level symbols, in two levels at most (`Node.shallowSymbols_agree`). Read one after another the
two differ in what is nested below a symbol and in nothing else, because only functions have
symbols below them (`Node.children_of_var`).

The order is that of `Symbol.preorder`, which follows the nesting; flattening gives the same order
while it keeps the symbols that wait in one list (`Symbol.flatten_eq_preorder`).
-/
namespace FishNav

namespace Symbol

/-! ### Order and depth of a forest -/

mutual

def preorder : Symbol → List Symbol
  | ⟨name, kind, range, selection, detail, children⟩ =>
    ⟨name, kind, range, selection, detail, children⟩ :: preorderOfAll children

def preorderOfAll : List Symbol → List Symbol
  | [] => []
  | s :: ss => preorder s ++ preorderOfAll ss

end

mutual

def depth : Symbol → Nat
  | ⟨_, _, _, _, _, children⟩ => depthOfAll children + 1

def depthOfAll : List Symbol → Nat
  | [] => 0
  | s :: ss => max (depth s) (depthOfAll ss)

end

theorem depth_eq (s : Symbol) : s.depth = depthOfAll s.children + 1 := by
  cases s
  rw [depth]

/-- A forest is as deep as its deepest symbol. -/
theorem depthOfAll_le_iff {ss : List Symbol} {bound : Nat} :
    depthOfAll ss ≤ bound ↔ ∀ s ∈ ss, s.depth ≤ bound := by
  induction ss with
  | nil => simp [depthOfAll]
  | cons s ss ih =>
    unfold depthOfAll
    rw [Nat.max_le, ih, List.forall_mem_cons]

mutual

/-- Flattening with a stack gives the order of the tree. -/
theorem flatten_tree (s : Symbol) : flatten [s] = s.preorder := by
  cases s with
  | mk name kind range selection detail children =>
    rw [flatten_singleton, preorder, flatten_eq_preorder children]

/-- Keeping the waiting symbols in one list gives the order of the nesting. -/
theorem flatten_eq_preorder (ss : List Symbol) : flatten ss = preorderOfAll ss := by
  cases ss with
  | nil => rw [flatten_nil, preorderOfAll]
  | cons s ss =>
    rw [preorderOfAll, ← flatten_tree s, ← flatten_eq_preorder ss, ← flatten_append,
      List.singleton_append]

end

/-! ### Symbols without what is below them -/

theorem depth_leaf (s : Symbol) : s.leaf.depth = 1 := by
  rw [depth_eq]
  rfl

theorem map_leaf_leaf (ss : List Symbol) : (ss.map leaf).map leaf = ss.map leaf := by
  rw [List.map_map]
  rfl

theorem flatten_map_leaf (ss : List Symbol) : flatten (ss.map leaf) = ss.map leaf := by
  induction ss with
  | nil => exact flatten_nil
  | cons s ss ih =>
    rw [List.map_cons, flatten_cons, show s.leaf.children = [] from rfl, List.nil_append, ih]

/-- A function with all that is inside it directly below it. -/
def shallow (s : Symbol) : Symbol :=
  if s.isFunction then { s with children := (flatten s.children).map leaf } else s

theorem leaf_shallow (s : Symbol) : s.shallow.leaf = s.leaf := by
  unfold shallow
  split <;> rfl

section

variable {s : Symbol} (childless : s.isFunction = false → s.children = [])
include childless

theorem children_shallow : s.shallow.children = (flatten s.children).map leaf := by
  unfold shallow
  split
  · rfl
  · next other =>
    rw [childless (by simpa using other), flatten_nil, List.map_nil]

/-- A shallow symbol has the same symbols below it, in the same order. -/
theorem flatten_shallow : (flatten [s.shallow]).map leaf = (flatten [s]).map leaf := by
  rw [flatten_singleton, flatten_singleton, List.map_cons, List.map_cons, leaf_shallow,
    children_shallow childless, flatten_map_leaf, map_leaf_leaf]

/-- A shallow symbol has at most one level below it. -/
theorem depth_shallow : s.shallow.depth ≤ 2 := by
  rw [depth_eq, children_shallow childless]
  apply Nat.succ_le_succ
  rw [depthOfAll_le_iff]
  intro t member
  obtain ⟨u, -, rfl⟩ := List.mem_map.mp member
  exact Nat.le_of_eq u.depth_leaf

end

/-- What holds of the symbols of a forest one by one holds of the forest. -/
theorem flatten_map_shallow {ss : List Symbol}
    (childless : ∀ s ∈ ss, s.isFunction = false → s.children = []) :
    (flatten (ss.map shallow)).map leaf = (flatten ss).map leaf := by
  induction ss with
  | nil => rfl
  | cons s ss ih =>
    rw [List.forall_mem_cons] at childless
    have first := flatten_shallow childless.1
    have rest := ih childless.2
    rw [List.map_cons, ← List.singleton_append, flatten_append, List.map_append, first, rest,
      ← List.map_append, ← flatten_append, List.singleton_append]

end Symbol

namespace Node

/-- A variable has nothing below it, at any depth. -/
theorem children_of_flatten_var {n : Node} {s : Symbol} (member : s ∈ Symbol.flatten n.symbols)
    (other : s.isFunction = false) : s.children = [] := by
  obtain ⟨m, -, own⟩ := exists_of_mem_flatten member
  rcases symbol?_cases own with ⟨-, name, symbol⟩ | ⟨-, -, rfl⟩
  · rw [Symbol.isFunction, symbol.kind] at other
    cases other
  · rfl

theorem children_of_var {n : Node} {s : Symbol} (member : s ∈ n.symbols)
    (other : s.isFunction = false) : s.children = [] :=
  children_of_flatten_var (Symbol.mem_flatten_of_mem member) other

/-- The shallow outline is the outline made shallow. -/
theorem shallowSymbols_eq (n : Node) : n.shallowSymbols = n.symbols.map Symbol.shallow := rfl

/-- The shallow outline under any node agrees with the outline: flattened, both have the same
symbols but for what is below each, at the top level too, and no symbol of the shallow one is more
than two levels deep; and flattening is the order of the nesting for every forest. -/
theorem shallowSymbols_agree (n : Node) :
    (Symbol.flatten n.shallowSymbols).length = (Symbol.flatten n.symbols).length ∧
      (Symbol.flatten n.shallowSymbols).map Symbol.leaf =
        (Symbol.flatten n.symbols).map Symbol.leaf ∧
      n.shallowSymbols.map Symbol.leaf = n.symbols.map Symbol.leaf ∧
      Symbol.depthOfAll n.shallowSymbols ≤ 2 ∧
      ∀ forest, Symbol.flatten forest = Symbol.preorderOfAll forest := by
  have childless : ∀ s ∈ n.symbols, s.isFunction = false → s.children = [] :=
    fun s member other => children_of_var member other
  have flat : (Symbol.flatten n.shallowSymbols).map Symbol.leaf =
      (Symbol.flatten n.symbols).map Symbol.leaf := by
    rw [shallowSymbols_eq]
    exact Symbol.flatten_map_shallow childless
  have top : n.shallowSymbols.map Symbol.leaf = n.symbols.map Symbol.leaf := by
    rw [shallowSymbols_eq, List.map_map]
    exact List.map_congr_left fun s _ => s.leaf_shallow
  refine ⟨?_, flat, top, ?_, Symbol.flatten_eq_preorder⟩
  · have length := congrArg List.length flat
    rwa [List.length_map, List.length_map] at length
  · rw [shallowSymbols_eq, Symbol.depthOfAll_le_iff]
    intro s member
    obtain ⟨t, inside, rfl⟩ := List.mem_map.mp member
    exact Symbol.depth_shallow (childless t inside)

end Node

end FishNav
