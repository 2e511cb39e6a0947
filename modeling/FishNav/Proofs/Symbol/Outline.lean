import FishNav.Proofs.Role
import FishNav.Proofs.Tree.Walks
import FishNav.Symbol.Outline

/-!
# How the outline is made

A node has a symbol of its own or none (`Node.symbol?`); the symbols of a node are its own one, or
else those of its children (`Node.symbols_eq`). So the symbols inside a node are those of the nodes
below it that can be reached without passing another symbol (`Node.mem_inner_iff`), and the
flattened outline goes through the tree in the order of its nodes (`Node.flatten_symbols`).
-/
namespace FishNav

namespace Symbol

theorem flatten_cons (s : Symbol) (ss : List Symbol) :
    flatten (s :: ss) = s :: flatten (s.children ++ ss) := by rw [flatten]

theorem flatten_nil : flatten [] = [] := by rw [flatten]

theorem flatten_append (ss ts : List Symbol) : flatten (ss ++ ts) = flatten ss ++ flatten ts := by
  fun_induction flatten ss with
  | case1 => rw [List.nil_append, List.nil_append]
  | case2 s waiting ih =>
    rw [List.cons_append, flatten_cons, ← List.append_assoc, ih, List.cons_append]

theorem flatten_singleton (s : Symbol) : flatten [s] = s :: flatten s.children := by
  rw [flatten_cons, List.append_nil]

theorem flatten_flatMap {α : Type} (f : α → List Symbol) (xs : List α) :
    flatten (xs.flatMap f) = xs.flatMap fun x => flatten (f x) := by
  induction xs with
  | nil => exact flatten_nil
  | cons x xs ih => rw [List.flatMap_cons, List.flatMap_cons, flatten_append, ih]

theorem flatten_eq_flatMap (ss : List Symbol) :
    flatten ss = ss.flatMap fun s => s :: flatten s.children := by
  simpa only [List.flatMap_singleton', flatten_singleton] using flatten_flatMap (fun s => [s]) ss

theorem mem_flatten_of_mem {s : Symbol} {ss : List Symbol} (member : s ∈ ss) :
    s ∈ flatten ss := by
  obtain ⟨before, after, rfl⟩ := List.append_of_mem member
  rw [flatten_append, flatten_cons]
  simp

/-- With a symbol, what is below it is in the flattened forest. -/
theorem mem_flatten_trans {s t : Symbol} {ss : List Symbol} (member : s ∈ flatten ss)
    (below : t ∈ flatten s.children) : t ∈ flatten ss := by
  fun_induction flatten ss with
  | case1 => cases member
  | case2 u waiting ih =>
    apply List.mem_cons_of_mem
    rcases List.mem_cons.mp member with rfl | later
    · rw [flatten_append]
      exact List.mem_append_left _ below
    · exact ih later

theorem mem_flatten_of_mem_children {s c : Symbol} {ss : List Symbol} (member : s ∈ flatten ss)
    (below : c ∈ s.children) : c ∈ flatten ss :=
  mem_flatten_trans member (mem_flatten_of_mem below)

end Symbol

namespace Node

/-! ### Symbols of nodes -/

def inner (n : Node) : List Symbol := Outline.collectAll n 0 n.self.children

/-- The symbol of a node: that of a function with a name, or of a variable brought in. -/
def symbol? (n : Node) : Option Symbol :=
  if n.kind.isDefinition then Symbol.ofFunction? n n.inner
  else if n.isVariableDefinition then some (.ofVariable n)
  else none

theorem collectAll_eq (p : Node) (slot : Nat) (ss : List Subtree) :
    Outline.collectAll p slot ss = (p.place slot ss).flatMap symbols := by
  induction ss generalizing slot with
  | nil => rw [Outline.collectAll, place, List.flatMap_nil]
  | cons s ss ih =>
    rw [Outline.collectAll, place, List.flatMap_cons, ih]
    rfl

theorem inner_eq (n : Node) : n.inner = n.children.flatMap symbols := collectAll_eq n 0 _

/-- A node with a symbol hides what is inside it; any other node passes it on. -/
theorem symbols_eq (n : Node) :
    n.symbols =
      match n.symbol? with
      | some s => [s]
      | none => n.inner := by
  have opened : ∀ (put : Subtree → Node) (s : Subtree), (put s).self = s →
      Outline.collect put s =
        match (put s).symbol? with
        | some s => [s]
        | none => (put s).inner := by
    intro put s self
    cases s with
    | mk id kind span text children =>
      rw [Outline.collect, symbol?, inner, self]
      dsimp only
      split
      · rfl
      · split <;> rfl
  have self : (n.put n.self).self = n.self := by rw [put_self]
  rw [symbols, opened n.put n.self self, put_self]

theorem symbols_of_symbol? {n : Node} {s : Symbol} (own : n.symbol? = some s) :
    n.symbols = [s] := by rw [symbols_eq, own]

theorem symbols_of_none {n : Node} (none : n.symbol? = none) : n.symbols = n.inner := by
  rw [symbols_eq, none]

/-- `s` is the symbol of the function `n` under the name `name`. -/
structure IsFunctionSymbol (n name : Node) (s : Symbol) : Prop where
  named : n.firstNamedChild? = some name
  text : s.name = name.text
  kind : s.kind = .function
  range : s.range = n.commentedRange
  selection : s.selection = name.range
  children : s.children = n.inner

/-- The symbol of a node is that of a function or of a variable. -/
theorem symbol?_cases {n : Node} {s : Symbol} (own : n.symbol? = some s) :
    (n.kind = .functionDefinition ∧ ∃ name, IsFunctionSymbol n name s) ∨
      n.kind ≠ .functionDefinition ∧ n.isVariableDefinition = true ∧ s = .ofVariable n := by
  unfold symbol? at own
  split at own
  · next definition =>
    have kind : n.kind = .functionDefinition := by
      revert definition
      cases n.kind <;> simp [Kind.isDefinition]
    obtain ⟨name, named, rfl⟩ := Option.map_eq_some_iff.mp own
    exact Or.inl ⟨kind, name, named, rfl, rfl, rfl, rfl, rfl⟩
  · next definition =>
    have kind : n.kind ≠ .functionDefinition := by
      intro kind
      simp [kind, Kind.isDefinition] at definition
    split at own
    · next brings => exact Or.inr ⟨kind, brings, (Option.some.inj own).symm⟩
    · cases own

/-- A function with a name has a symbol, whose parts are known. -/
theorem symbol?_of_function {n name : Node} (kind : n.kind = .functionDefinition)
    (named : n.firstNamedChild? = some name) :
    ∃ s, n.symbol? = some s ∧ IsFunctionSymbol n name s := by
  rw [symbol?, kind, Kind.isDefinition, if_pos rfl, Symbol.ofFunction?, named]
  exact ⟨_, rfl, named, rfl, rfl, rfl, rfl, rfl⟩

theorem symbol?_of_variable {n : Node} (definition : n.isVariableDefinition = true) :
    n.symbol? = some (.ofVariable n) := by
  have other : n.kind.isDefinition = false := by
    cases kind : n.kind with
    | functionDefinition => simp [not_isVariableDefinition_of_function kind] at definition
    | _ => rfl
  rw [symbol?, other, if_neg Bool.false_ne_true, if_pos definition]

/-! ### Levels -/

/-- `m` is below `p` with no symbol in between. -/
inductive Exposed (p : Node) : Node → Prop
  | child {m : Node} (step : m ∈ p.children) : Exposed p m
  | down {q m : Node} (way : Exposed p q) (none : q.symbol? = none) (step : m ∈ q.children) :
      Exposed p m

namespace Exposed

theorem exists_parent {p m : Node} (exposed : Exposed p m) :
    ∃ q, Descends p q ∧ m ∈ q.children := by
  induction exposed with
  | child step => exact ⟨p, .here, step⟩
  | down _ _ step ih =>
    obtain ⟨q, way, step'⟩ := ih
    exact ⟨_, way.down step', step⟩

theorem descends {p m : Node} (exposed : Exposed p m) : Descends p m := by
  obtain ⟨q, way, step⟩ := exposed.exists_parent
  exact way.down step

theorem cons {p c m : Node} (step : c ∈ p.children) (none : c.symbol? = none)
    (exposed : Exposed c m) : Exposed p m := by
  induction exposed with
  | child next => exact .down (.child step) none next
  | down _ none' next ih => exact .down ih none' next

end Exposed

/-- The symbols inside a node are those of the nodes exposed below it. -/
theorem mem_inner_iff {p : Node} {s : Symbol} :
    s ∈ p.inner ↔ ∃ m, Exposed p m ∧ m.symbol? = some s := by
  constructor
  · induction p using induction_children with
    | step p ih =>
      intro member
      rw [inner_eq, List.mem_flatMap] at member
      obtain ⟨c, step, member⟩ := member
      cases own : c.symbol? with
      | some t =>
        rw [symbols_of_symbol? own, List.mem_singleton] at member
        exact ⟨c, .child step, by rw [own, member]⟩
      | none =>
        rw [symbols_of_none own] at member
        obtain ⟨m, exposed, own'⟩ := ih c step member
        exact ⟨m, exposed.cons step own, own'⟩
  · rintro ⟨m, exposed, own⟩
    have included : ∀ t ∈ m.symbols, t ∈ p.inner := by
      clear own
      induction exposed with
      | child step =>
        intro t member
        rw [inner_eq]
        exact List.mem_flatMap_of_mem step member
      | @down q m _ none step ih =>
        intro t member
        rw [symbols_of_none none, inner_eq] at ih
        exact ih t (List.mem_flatMap_of_mem step member)
    exact included s (by rw [symbols_of_symbol? own]; exact List.mem_singleton_self s)

/-! ### The flattened outline -/

/-- A variable has one symbol; any other node has its own one and those of its children. -/
theorem flatten_symbols (n : Node) :
    (n.kind ≠ .functionDefinition ∧ n.isVariableDefinition = true ∧
        Symbol.flatten n.symbols = [.ofVariable n]) ∨
      ((n.kind = .functionDefinition ∨ n.isVariableDefinition = false) ∧
        Symbol.flatten n.symbols =
          n.symbol?.toList ++ n.children.flatMap fun c => Symbol.flatten c.symbols) := by
  have below : Symbol.flatten n.inner = n.children.flatMap fun c => Symbol.flatten c.symbols := by
    rw [inner_eq, Symbol.flatten_flatMap]
  cases own : n.symbol? with
  | none =>
    refine Or.inr ⟨?_, by rw [symbols_of_none own, below]; rfl⟩
    by_cases kind : n.kind = .functionDefinition
    · exact Or.inl kind
    · refine Or.inr (Bool.eq_false_iff.mpr fun definition => ?_)
      rw [symbol?_of_variable definition] at own
      cases own
  | some s =>
    rw [symbols_of_symbol? own, Symbol.flatten_singleton]
    rcases symbol?_cases own with ⟨kind, name, symbol⟩ | ⟨kind, definition, rfl⟩
    · exact Or.inr ⟨Or.inl kind, by rw [symbol.children, below]; rfl⟩
    · exact Or.inl ⟨kind, definition, by rw [show (Symbol.ofVariable n).children = [] from rfl,
        Symbol.flatten_nil]⟩

/-- Every symbol of the flattened outline is the symbol of a node. -/
theorem exists_of_mem_flatten {n : Node} {s : Symbol} (member : s ∈ Symbol.flatten n.symbols) :
    ∃ m, Descends n m ∧ m.symbol? = some s := by
  induction n using induction_children with
  | step n ih =>
    rcases n.flatten_symbols with ⟨kind, definition, flat⟩ | ⟨-, flat⟩
    · rw [flat, List.mem_singleton] at member
      exact ⟨n, .here, by rw [member, symbol?_of_variable definition]⟩
    · rw [flat, List.mem_append, Option.mem_toList, List.mem_flatMap] at member
      rcases member with own | ⟨c, step, member⟩
      · exact ⟨n, .here, own⟩
      · obtain ⟨m, way, own⟩ := ih c step member
        exact ⟨m, (Descends.child step).trans way, own⟩

end Node

end FishNav
