import FishNav.Proofs.Script.Definitions
import FishNav.Proofs.Symbol.Outline

/-!
# The outline of a script

The symbols of a script nest: the range of a symbol takes in its selection and the ranges of the
symbols below it, and the names come one after the other in the flattened outline
(`outline_nested`).

A symbol starts its selection behind the start of every node around it (`selection_start`), which
orders the symbols of siblings. Comments above a definition are siblings of what they widen, so a
widened range stays inside the parent (`commented_within`).
-/
namespace FishNav

/-- Ranges in order are nested in the sense of lines and columns too. -/
theorem Range.contains_of_le {outer inner : Range} (start : outer.start ≤ inner.start)
    (forward : inner.start ≤ inner.stop) (stop : inner.stop ≤ outer.stop) :
    outer.contains inner = true := by
  rw [Position.le_def] at start forward stop
  simp only [contains, Bool.and_eq_true, Bool.not_eq_true', Bool.and_eq_false_iff,
    decide_eq_true_eq, decide_eq_false_iff_not, beq_eq_false_iff_ne]
  omega

/-- The range of a symbol takes in its selection and the ranges of the symbols below it, at every
depth. -/
inductive Symbol.Nested : Symbol → Prop
  | intro {s : Symbol} (selection : s.range.contains s.selection = true)
      (children : ∀ c ∈ s.children, s.range.contains c.range = true)
      (below : ∀ c ∈ s.children, Nested c) : Nested s

namespace Script

open Cst
open Node (Descends)

variable {source : String} {n m p : Node} {s : Symbol}

/-! ### Names of functions -/

/-- The first named child, and what stands before it. -/
theorem firstNamed_place {name : Node} (first : p.firstNamedChild? = some name) :
    name.isNamed = true ∧ ∃ k : Nat, p.children[k]? = some name ∧
      ∀ i c, p.children[i]? = some c → i < k → c.kind = .anonymous := by
  obtain ⟨named, front, back, split, unnamed⟩ := List.find?_eq_some_iff_append.mp first
  refine ⟨named, front.length, by simp [split], fun i c found order => ?_⟩
  rw [split, List.getElem?_append_left order] at found
  have plain := unnamed c (List.mem_of_getElem? found)
  simpa [Node.isNamed, Kind.isNamed] using plain

theorem function_before_name {name : Node} (inside : Descends (root source) n)
    (function : n.kind = .functionDefinition) (first : n.firstNamedChild? = some name) :
    n.start < name.start := by
  obtain ⟨named, k, found, -⟩ := firstNamed_place first
  obtain ⟨front, parts, stands⟩ := exists_stands inside
  obtain ⟨before, inner, after, split, -, child⟩ := stands.child (Node.getElem?_self_children found)
  have rule := stands.rule
  rw [show n.self.kind = .functionDefinition from function] at rule
  rw [stands.start, child.start]
  cases rule with
  | functionDefinition =>
    cases before with
    | nil =>
      have kind : Kind.anonymous = name.kind := (Cst.node.inj (List.cons.inj split).1).1
      simp [Node.isNamed, ← kind, Kind.isNamed] at named
    | cons q before =>
      obtain ⟨rfl, -⟩ := List.cons.inj split
      exact position_lt_append front (by simp [functionWord])

/-- The name of a function or of a command brings in no variable. -/
theorem name_not_definition {name : Node} (inside : Descends (root source) n)
    (other : n.kind ≠ .forStatement) (first : n.firstNamedChild? = some name) :
    name.isVariableDefinition = false := by
  refine Bool.eq_false_iff.mpr fun definition => ?_
  obtain ⟨named, k, found, -⟩ := firstNamed_place first
  have step := List.mem_of_getElem? found
  obtain ⟨p, parent, role⟩ := Node.isVariableDefinition_cases definition
  obtain rfl : n = p := Option.some.inj ((Node.parent?_of_mem_children step).symm.trans parent)
  rcases role with ⟨-, loop⟩ | ⟨-, -, m, member, same⟩
  · exact absurd loop other
  · obtain ⟨name', i, j, first', -, order, hi, hj⟩ := Node.exists_before_of_mem_tail member
    obtain rfl : name = name' := Option.some.inj (first.symm.trans first')
    obtain rfl : m = name :=
      (same_iff (inside.down (List.mem_of_getElem? hj)) (inside.down step)).mp same
    rcases sibling_before_definition inside hi hj order definition with token | gap
    · simp [Node.isNamed, Kind.isNamed, token] at named
    · exact absurd (start_le_stop (inside.down step)) (not_le_of_gt gap)

/-! ### Order -/

/-- Where the selection of a symbol starts, seen from a node around it. -/
theorem selection_start (inside : Descends (root source) n) (way : Descends n m)
    (own : m.symbol? = some s) :
    s.selection.start ≤ n.stop ∧
      (n.start < s.selection.start ∨
        n.isVariableDefinition = true ∧ s.selection.start = n.start) := by
  have within := within_of_descends inside way
  have insideM := inside.trans way
  rcases Node.symbol?_cases own with ⟨function, name, symbol⟩ | ⟨-, definition, rfl⟩
  · obtain ⟨-, k, found, -⟩ := firstNamed_place symbol.named
    have child := child_within insideM (List.mem_of_getElem? found)
    have forward := start_le_stop (insideM.down (List.mem_of_getElem? found))
    have behind := function_before_name insideM function symbol.named
    rw [symbol.selection]
    exact ⟨le_trans forward (le_trans child.2 within.2), Or.inl (lt_of_le_of_lt within.1 behind)⟩
  · refine ⟨le_trans (start_le_stop insideM) within.2, ?_⟩
    cases way with
    | here => exact Or.inr ⟨definition, rfl⟩
    | down above step =>
      have behind := parent_before_definition (inside.trans above) step definition
      exact Or.inl (lt_of_le_of_lt (within_of_descends inside above).1 behind)

theorem flatten_token (inside : Descends (root source) n) (token : n.kind = .anonymous) :
    Symbol.flatten n.symbols = [] := by
  rw [List.eq_nil_iff_forall_not_mem]
  intro s member
  obtain ⟨m, way, own⟩ := Node.exists_of_mem_flatten member
  obtain rfl := eq_of_leaf inside (by rw [token]; rfl) way
  rcases Node.symbol?_cases own with ⟨function, -⟩ | ⟨-, definition, -⟩
  · simp [token] at function
  · obtain ⟨p, parent, -⟩ := Node.isVariableDefinition_cases definition
    rcases kinds_of_definition parent definition with ⟨kind, -⟩ | ⟨kind, -⟩ <;>
      simp [token] at kind

/-- The symbols of a child come before those of a later one. -/
theorem siblings_ordered {c d : Node} {i j : Nat} (inside : Descends (root source) p)
    (first : p.children[i]? = some c) (second : p.children[j]? = some d) (order : i < j) :
    ∀ s ∈ Symbol.flatten c.symbols, ∀ t ∈ Symbol.flatten d.symbols,
      s.selection.start < t.selection.start := by
  intro s left t right
  have insideC := inside.down (List.mem_of_getElem? first)
  have insideD := inside.down (List.mem_of_getElem? second)
  obtain ⟨m, way, own⟩ := Node.exists_of_mem_flatten left
  obtain ⟨m', way', own'⟩ := Node.exists_of_mem_flatten right
  have upper := (selection_start insideC way own).1
  have between := siblings_le inside first second order
  rcases (selection_start insideD way' own').2 with behind | ⟨definition, start⟩
  · exact lt_of_le_of_lt (le_trans upper between) behind
  · rw [start]
    rcases sibling_before_definition inside first second order definition with token | gap
    · rw [flatten_token insideC token] at left
      cases left
    · exact lt_of_le_of_lt upper gap

/-- The symbol of a function comes before those inside it. -/
theorem function_ordered {name c : Node} {i : Nat} (inside : Descends (root source) n)
    (function : n.kind = .functionDefinition) (first : n.firstNamedChild? = some name)
    (found : n.children[i]? = some c) :
    ∀ t ∈ Symbol.flatten c.symbols, name.start < t.selection.start := by
  intro t member
  obtain ⟨named, k, place, unnamed⟩ := firstNamed_place first
  have insideC := inside.down (List.mem_of_getElem? found)
  have forward := start_le_stop (inside.down (List.mem_of_getElem? place))
  obtain ⟨m, way, own⟩ := Node.exists_of_mem_flatten member
  have start := (selection_start insideC way own).2
  rcases Nat.lt_trichotomy i k with before | same | behind
  · rw [flatten_token insideC (unnamed i c found before)] at member
    cases member
  · subst same
    obtain rfl : name = c := Option.some.inj (place.symm.trans found)
    rcases start with strict | ⟨definition, -⟩
    · exact strict
    · simp [name_not_definition inside (by simp [function]) first] at definition
  · have between := siblings_le inside place found behind
    rcases start with strict | ⟨definition, start⟩
    · exact lt_of_le_of_lt (le_trans forward between) strict
    · rw [start]
      rcases sibling_before_definition inside place found behind definition with token | gap
      · simp [Node.isNamed, Kind.isNamed, token] at named
      · exact lt_of_le_of_lt forward gap

/-- The flattened outline of a node is in the order of the names. -/
theorem flatten_ordered (inside : Descends (root source) n) :
    (Symbol.flatten n.symbols).Pairwise fun s t => s.selection.start < t.selection.start := by
  induction n using Node.induction_children with
  | step n ih =>
    rcases n.flatten_symbols with ⟨-, -, flat⟩ | ⟨role, flat⟩
    · rw [flat]
      exact List.pairwise_singleton _ _
    · rw [flat, List.pairwise_append]
      refine ⟨?_, ?_, ?_⟩
      · cases n.symbol? <;> simp
      · rw [List.pairwise_flatMap]
        refine ⟨fun c step => ih c step (inside.down step), ?_⟩
        rw [List.pairwise_iff_getElem]
        intro i j hi hj order
        exact siblings_ordered inside (List.getElem?_eq_getElem hi) (List.getElem?_eq_getElem hj)
          order
      · intro s own t below
        rw [Option.mem_toList] at own
        obtain ⟨c, step, member⟩ := List.mem_flatMap.mp below
        obtain ⟨i, found⟩ := List.mem_iff_getElem?.mp step
        rcases Node.symbol?_cases own with ⟨function, name, symbol⟩ | ⟨kind, definition, -⟩
        · rw [symbol.selection]
          exact function_ordered inside function symbol.named found t member
        · rcases role with function | none
          · exact absurd function kind
          · simp [definition] at none

/-- The flattened outline of a node has the symbols of all nodes below it. -/
theorem mem_flatten_of_descends (inside : Descends (root source) n) (way : Descends n m)
    (own : m.symbol? = some s) : s ∈ Symbol.flatten n.symbols := by
  have included : Symbol.flatten m.symbols ⊆ Symbol.flatten n.symbols := by
    clear own
    induction way with
    | here => exact List.Subset.refl _
    | @down p m way step ih =>
      intro t member
      apply ih
      rcases p.flatten_symbols with ⟨-, definition, -⟩ | ⟨-, flat⟩
      · simp [not_definition_of_child (inside.trans way) step] at definition
      · rw [flat, List.mem_append, List.mem_flatMap]
        exact Or.inr ⟨m, step, member⟩
  apply included
  rw [Node.symbols_of_symbol? own, Symbol.flatten_singleton]
  exact List.mem_cons_self

/-- The symbol of a node comes before those of the nodes below it. -/
theorem descends_ordered {t : Symbol} (inside : Descends (root source) n) (way : Descends n m)
    (own : n.symbol? = some s) (own' : m.symbol? = some t) (other : n ≠ m) :
    s.selection.start < t.selection.start := by
  rcases way.cases_child with rfl | ⟨c, step, rest⟩
  · exact absurd rfl other
  · rcases Node.symbol?_cases own with ⟨function, name, symbol⟩ | ⟨-, definition, -⟩
    · obtain ⟨i, found⟩ := List.mem_iff_getElem?.mp step
      rw [symbol.selection]
      apply function_ordered inside function symbol.named found
      exact mem_flatten_of_descends (inside.down step) rest own'
    · simp [not_definition_of_child inside step] at definition

/-- Only one node has a symbol whose selection starts at a place. -/
theorem eq_of_selection_start {m' : Node} {t : Symbol} (left : Descends (root source) m)
    (right : Descends (root source) m') (own : m.symbol? = some s) (own' : m'.symbol? = some t)
    (same : s.selection.start = t.selection.start) : m = m' := by
  by_contra other
  rcases left.compare right with down | up | ⟨p, way, c, d, i, j, slots, hc, hd, hm, hn⟩
  · exact absurd same (ne_of_lt (descends_ordered left down own own' other))
  · exact absurd same.symm (ne_of_lt (descends_ordered right up own' own (Ne.symm other)))
  · have first := mem_flatten_of_descends (way.down (List.mem_of_getElem? hc)) hm own
    have second := mem_flatten_of_descends (way.down (List.mem_of_getElem? hd)) hn own'
    rcases Nat.lt_or_gt_of_ne slots with order | order
    · exact absurd same (ne_of_lt (siblings_ordered way hc hd order s first t second))
    · exact absurd same.symm (ne_of_lt (siblings_ordered way hd hc order t second s first))

/-! ### Ranges -/

/-- The range of a node with the comments above it, in what is around it. -/
theorem commented_within {a d : Node} (inside : Descends (root source) a) (way : Descends a p)
    (step : d ∈ p.children) :
    a.start ≤ d.commentedRange.start ∧ d.commentedRange.start ≤ d.start ∧
      d.commentedRange.stop = d.stop ∧ d.stop ≤ a.stop := by
  have insideP := inside.trans way
  have around := within_of_descends inside way
  have child := child_within insideP step
  obtain ⟨slot, t, found, rfl⟩ := Node.mem_children_iff.mp step
  have place : p.children[slot]? = some (.child p slot t) := by
    rw [Node.getElem?_children, found, Option.map_some]
  have stop := le_trans child.2 around.2
  unfold Node.commentedRange
  split
  · exact ⟨le_trans around.1 child.1, le_refl _, rfl, stop⟩
  · next first last =>
    have member := List.mem_of_getLast? last
    have earlier : first ∈ p.children.take slot := by
      have run := (List.takeWhile_sublist _).subset member
      simpa [Node.before] using (List.mem_filter.mp run).1
    obtain ⟨i, order, rfl⟩ := List.mem_take_iff_getElem.mp earlier
    have bound : i < p.children.length := by omega
    have before := siblings_le insideP (List.getElem?_eq_getElem bound) place (by omega)
    have above := List.getElem_mem bound
    exact ⟨le_trans around.1 (child_within insideP above).1,
      le_trans (start_le_stop (insideP.down above)) before, rfl, stop⟩

/-- The construct that brings in a variable, below a function or the program around it. -/
theorem declaration_below (bounds : n.bounds = true) (way : Descends n p)
    (step : m ∈ p.children) :
    ∃ q, Descends n q ∧ m.declaration ∈ q.children ∧ Descends m.declaration m := by
  have parent := Node.parent?_of_mem_children step
  unfold Node.declaration
  rw [parent]
  dsimp only
  split
  · next construct =>
    cases way with
    | here =>
      have kind : n.kind = .functionDefinition ∨ n.kind = .program := by
        simpa [Node.bounds, Node.isFunctionDefinition, Node.isProgram] using bounds
      rcases kind with kind | kind <;> simp [Node.isCommand, kind, Kind.isLoop] at construct
    | down above step' => exact ⟨_, above, step', .child step⟩
  · exact ⟨p, way, step, .here⟩

/-- The range of a symbol lies inside every function around it and takes in the selection. -/
theorem symbol_range (inside : Descends (root source) n) (bounds : n.bounds = true)
    (way : Descends n p) (step : m ∈ p.children) (own : m.symbol? = some s) :
    n.start ≤ s.range.start ∧ s.range.start ≤ s.range.stop ∧ s.range.stop ≤ n.stop ∧
      s.range.contains s.selection = true := by
  have insideM := (inside.trans way).down step
  rcases Node.symbol?_cases own with ⟨-, name, symbol⟩ | ⟨-, -, rfl⟩
  · obtain ⟨start, widened, stop, below⟩ := commented_within inside way step
    obtain ⟨-, k, found, -⟩ := firstNamed_place symbol.named
    have member := List.mem_of_getElem? found
    have child := child_within insideM member
    rw [symbol.range, symbol.selection]
    refine ⟨start, ?_, stop ▸ below, Range.contains_of_le ?_ ?_ ?_⟩
    · exact stop ▸ le_trans widened (start_le_stop insideM)
    · exact le_trans widened child.1
    · exact start_le_stop (insideM.down member)
    · exact stop ▸ child.2
  · obtain ⟨q, way', step', down⟩ := declaration_below bounds way step
    obtain ⟨start, widened, stop, below⟩ := commented_within inside way' step'
    have insideD := (inside.trans way').down step'
    have around := within_of_descends insideD down
    refine ⟨start, ?_, stop ▸ below, Range.contains_of_le ?_ ?_ ?_⟩
    · exact stop ▸ le_trans widened (start_le_stop insideD)
    · exact le_trans widened around.1
    · exact start_le_stop insideM
    · exact stop ▸ around.2

theorem symbol?_root (source : String) : (root source).symbol? = none := by
  cases own : (root source).symbol? with
  | none => rfl
  | some s =>
    rcases Node.symbol?_cases own with ⟨function, -⟩ | ⟨-, definition, -⟩
    · simp [(stands_root source).1] at function
    · obtain ⟨p, parent, -⟩ := Node.isVariableDefinition_cases definition
      cases parent

theorem bounds_root (source : String) : (root source).bounds = true := by
  simp [Node.bounds, Node.isProgram, (stands_root source).1]

/-- The range of a function takes in the ranges of the symbols inside it. -/
theorem inner_within {name : Node} {c : Symbol} (inside : Descends (root source) p)
    (step : n ∈ p.children) (function : n.kind = .functionDefinition)
    (symbol : n.IsFunctionSymbol name s) (member : c ∈ n.inner) :
    s.range.contains c.range = true := by
  obtain ⟨-, widened, stop, -⟩ := commented_within inside .here step
  obtain ⟨m, exposed, own⟩ := Node.mem_inner_iff.mp member
  obtain ⟨q, way, step'⟩ := exposed.exists_parent
  have bounds : n.bounds = true := by simp [Node.bounds, Node.isFunctionDefinition, function]
  obtain ⟨start, forward, below, -⟩ := symbol_range (inside.down step) bounds way step' own
  rw [symbol.range]
  exact Range.contains_of_le (le_trans widened start) forward (stop ▸ below)

/-- Nesting goes down the outline as it goes down the tree. -/
theorem symbols_nested (inside : Descends (root source) n) : ∀ s ∈ n.symbols, s.Nested := by
  induction n using Node.induction_children with
  | step n ih =>
    have inner : ∀ s ∈ n.inner, s.Nested := by
      intro s member
      rw [Node.inner_eq] at member
      obtain ⟨c, step, member⟩ := List.mem_flatMap.mp member
      exact ih c step (inside.down step) s member
    cases own : n.symbol? with
    | none => rwa [Node.symbols_of_none own]
    | some s =>
      rw [Node.symbols_of_symbol? own]
      simp only [List.mem_singleton, forall_eq]
      cases inside with
      | here => simp [symbol?_root] at own
      | down way step =>
        obtain ⟨-, -, -, selection⟩ := symbol_range .here (bounds_root source) way step own
        rcases Node.symbol?_cases own with ⟨function, name, symbol⟩ | ⟨-, -, rfl⟩
        · refine .intro selection ?_ ?_ <;> rw [symbol.children]
          · exact fun c member => inner_within way step function symbol member
          · exact inner
        · exact .intro selection (by simp [Symbol.ofVariable, Symbol.withDetail])
            (by simp [Symbol.ofVariable, Symbol.withDetail])

/-- The outline of every script is well formed: symbols nest at every depth, and the names in the
flattened outline come one after the other. -/
theorem outline_nested (source : String) :
    ∃ r, (tree source).root? = some r ∧ (∀ s ∈ r.symbols, s.Nested) ∧
      ((Symbol.flatten r.symbols).map fun s => s.selection.start).Pairwise (· < ·) := by
  refine ⟨root source, root?_tree source, symbols_nested .here, ?_⟩
  rw [List.pairwise_map]
  exact flatten_ordered .here

end Script

end FishNav
