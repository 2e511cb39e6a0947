import FishNav.Proofs.Symbol.Outline
import Mathlib.Data.List.Forall2

/-!
# Which nodes have symbols

A node is listed if it is a function with a name or brings in a variable, and is not itself inside
something that brings in a variable. The flattened outline of a tree has exactly one symbol for each
listed node, in the order of the nodes, and the symbol directly above it is that of the nearest
function with a name around the node (`flatten_listed`).

Symbols of a forest are told apart by their places in the flattened order: `Symbol.linked` goes
through the forest in that order and notes for each symbol the place of the one above it.
-/
namespace FishNav

namespace Symbol

mutual

/-- A symbol at place `place` and the symbols below it, each with the place of the symbol directly
above it; for the first one this is `above`. -/
def linked (above : Option Nat) (place : Nat) : Symbol → List (Option Nat × Symbol)
  | ⟨name, kind, range, selection, detail, children⟩ =>
    (above, ⟨name, kind, range, selection, detail, children⟩) ::
      linkedAll (some place) (place + 1) children

/-- The same for a forest under one symbol, or under none. -/
def linkedAll (above : Option Nat) (place : Nat) : List Symbol → List (Option Nat × Symbol)
  | [] => []
  | s :: ss => linked above place s ++ linkedAll above (place + s.count) ss

end

theorem linkedAll_nil (above : Option Nat) (place : Nat) : linkedAll above place [] = [] := by
  rw [linkedAll]

theorem linked_eq (above : Option Nat) (place : Nat) (s : Symbol) :
    s.linked above place = (above, s) :: linkedAll (some place) (place + 1) s.children := by
  cases s
  rw [linked]

theorem linkedAll_singleton (above : Option Nat) (place : Nat) (s : Symbol) :
    linkedAll above place [s] =
      (above, s) :: linkedAll (some place) (place + 1) s.children := by
  rw [linkedAll, linkedAll_nil, List.append_nil, linked_eq]

theorem linkedAll_append (above : Option Nat) (place : Nat) (ss ts : List Symbol) :
    linkedAll above place (ss ++ ts) =
      linkedAll above place ss ++ linkedAll above (place + countAll ss) ts := by
  induction ss generalizing place with
  | nil => simp [linkedAll_nil, countAll]
  | cons s ss ih =>
    rw [List.cons_append, linkedAll, linkedAll, ih, countAll, List.append_assoc, Nat.add_assoc]

mutual

theorem map_snd_linked (above : Option Nat) (place : Nat) (s : Symbol) :
    (s.linked above place).map Prod.snd = flatten [s] := by
  cases s with
  | mk name kind range selection detail children =>
    rw [linked, List.map_cons, map_snd_linkedAll, flatten_singleton]

/-- The places are those in the flattened forest. -/
theorem map_snd_linkedAll (above : Option Nat) (place : Nat) (ss : List Symbol) :
    (linkedAll above place ss).map Prod.snd = flatten ss := by
  cases ss with
  | nil => rw [linkedAll_nil, flatten_nil, List.map_nil]
  | cons s ss =>
    rw [linkedAll, List.map_append, map_snd_linked, map_snd_linkedAll, ← flatten_append,
      List.singleton_append]

end

mutual

theorem length_linked (above : Option Nat) (place : Nat) (s : Symbol) :
    (s.linked above place).length = s.count := by
  cases s with
  | mk name kind range selection detail children =>
    rw [linked, List.length_cons, length_linkedAll, count]

theorem length_linkedAll (above : Option Nat) (place : Nat) (ss : List Symbol) :
    (linkedAll above place ss).length = countAll ss := by
  cases ss with
  | nil => rw [linkedAll_nil, countAll, List.length_nil]
  | cons s ss => rw [linkedAll, List.length_append, length_linked, length_linkedAll, countAll]

end

end Symbol

namespace Node

/-! ### Listed nodes -/

/-- A function with a name, or with something else to be called by. -/
def isNamedFunction (n : Node) : Bool := n.isFunctionDefinition && n.children.any isNamed

def isDeclaration (n : Node) : Bool := n.isNamedFunction || n.isVariableDefinition

/-- Brings in a name, and is not inside of what brings in a variable. -/
def isListed (n : Node) : Bool := n.isDeclaration && n.ancestors.all (!isVariableDefinition ·)

/-- The listed nodes among `n` and the nodes below it, each before those below it. -/
def listed (n : Node) : List Node := n.preorder.filter isListed

/-- `s` is the symbol that the node `n` brings in. -/
def Declares (n : Node) (s : Symbol) : Prop :=
  (n.kind = .functionDefinition ∧ ∃ name, IsFunctionSymbol n name s) ∨
    n.kind ≠ .functionDefinition ∧ n.isVariableDefinition = true ∧ s = .ofVariable n

/-- Where in `nodes` the nearest function with a name around `n` is. -/
inductive Under (nodes : List Node) (n : Node) : Option Nat → Prop
  | top (nowhere : n.findAbove? isNamedFunction = none) : Under nodes n none
  | inside {f : Node} {place : Nat} (nearest : n.findAbove? isNamedFunction = some f)
      (found : nodes[place]? = some f) : Under nodes n (some place)

theorem isSome_symbol? (n : Node) : n.symbol?.isSome = n.isDeclaration := by
  by_cases kind : n.kind = .functionDefinition
  · have named : n.firstNamedChild?.isSome = n.children.any isNamed := by
      rw [firstNamedChild?, List.isSome_find?]
    simp [symbol?, isDeclaration, isNamedFunction, isFunctionDefinition, kind, Kind.isDefinition,
      Symbol.ofFunction?, not_isVariableDefinition_of_function kind, named]
  · cases definition : n.isVariableDefinition with
    | true => simp [symbol?_of_variable definition, isDeclaration, definition]
    | false =>
      have other : n.symbol? = none := by
        rw [Option.eq_none_iff_forall_ne_some]
        intro s own
        rcases symbol?_cases own with ⟨function, -⟩ | ⟨-, brings, -⟩
        · exact kind function
        · simp [definition] at brings
      simp [other, isDeclaration, isNamedFunction, isFunctionDefinition, kind, definition]

/-- Nothing inside of what brings in a variable is listed. -/
theorem listed_below_variable {n c : Node} (definition : n.isVariableDefinition = true)
    (step : c ∈ n.children) : c.listed = [] := by
  rw [listed, List.filter_eq_nil_iff]
  intro m member isListed
  have way := mem_preorder_iff.mp member
  have above : n ∈ m.ancestors := by
    have higher : n ∈ c.ancestors := by simp [ancestors_of_mem_children step]
    rcases way.eq_or_mem_ancestors with rfl | lower
    · exact higher
    · exact mem_ancestors_trans higher lower
  simp only [Node.isListed, Bool.and_eq_true, List.all_eq_true] at isListed
  simpa [definition] using isListed.2 n above

/-- Away from variables that are brought in, to be listed is to have a symbol. -/
theorem isListed_of_free {n : Node} (free : n.ancestors.all (!isVariableDefinition ·) = true) :
    n.isListed = n.symbol?.isSome := by
  rw [isListed, free, Bool.and_true, isSome_symbol?]

theorem listed_eq {n : Node} (free : n.ancestors.all (!isVariableDefinition ·) = true) :
    n.listed = (if n.symbol?.isSome then [n] else []) ++ n.children.flatMap listed := by
  rw [listed, preorder_eq, List.filter_cons, isListed_of_free free, List.filter_flatMap]
  split <;> rfl

/-- The nearest function with a name, seen from a child. -/
theorem Under.child {nodes : List Node} {n c : Node} {above : Option Nat}
    (under : Under nodes n above) (other : n.isNamedFunction = false) (step : c ∈ n.children) :
    Under nodes c above := by
  have same : c.findAbove? isNamedFunction = n.findAbove? isNamedFunction := by
    rw [findAbove?, ancestors_of_mem_children step, List.find?_cons, other]
    rfl
  cases under with
  | top nowhere => exact .top (same.trans nowhere)
  | inside nearest found => exact .inside (same.trans nearest) found

theorem Under.function {nodes : List Node} {n c : Node} {place : Nat}
    (function : n.isNamedFunction = true) (found : nodes[place]? = some n)
    (step : c ∈ n.children) : Under nodes c (some place) := by
  refine .inside ?_ found
  rw [findAbove?, ancestors_of_mem_children step, List.find?_cons, function]

/-! ### Listed nodes and linked symbols -/

/-- The node `n` has the symbol of the entry `e`, under the right one. -/
def Linked (nodes : List Node) (n : Node) (e : Option Nat × Symbol) : Prop :=
  n.symbol? = some e.2 ∧ Under nodes n e.1

/-- What holds of the symbols of each of some siblings holds of all of them together. -/
theorem linked_siblings {nodes : List Node} {above : Option Nat} (cs : List Node)
    (each : ∀ c ∈ cs, ∀ before after, nodes = before ++ c.listed ++ after →
      List.Forall₂ (Linked nodes) c.listed (Symbol.linkedAll above before.length c.symbols))
    (before after : List Node) (whole : nodes = before ++ cs.flatMap listed ++ after) :
    List.Forall₂ (Linked nodes) (cs.flatMap listed)
      (Symbol.linkedAll above before.length (cs.flatMap symbols)) := by
  induction cs generalizing before with
  | nil =>
    rw [List.flatMap_nil, List.flatMap_nil, Symbol.linkedAll_nil]
    exact .nil
  | cons c cs ih =>
    rw [List.forall_mem_cons] at each
    rw [List.flatMap_cons, ← List.append_assoc] at whole
    have first := each.1 before (cs.flatMap listed ++ after) (by rw [whole, List.append_assoc])
    have rest := ih each.2 (before ++ c.listed) whole
    have count : c.listed.length = Symbol.countAll c.symbols := by
      rw [first.length_eq, Symbol.length_linkedAll]
    rw [List.length_append, count] at rest
    rw [List.flatMap_cons, List.flatMap_cons, Symbol.linkedAll_append]
    exact List.rel_append first rest

/-- The listed nodes of a subtree, where they stand in `nodes`, go with its symbols. -/
theorem linked_symbols {nodes : List Node} (n : Node)
    (free : n.ancestors.all (!isVariableDefinition ·) = true) (above : Option Nat)
    (under : Under nodes n above) (before after : List Node)
    (whole : nodes = before ++ n.listed ++ after) :
    List.Forall₂ (Linked nodes) n.listed
      (Symbol.linkedAll above before.length n.symbols) := by
  induction n using induction_children generalizing above before after with
  | step n ih =>
    -- below a variable nothing is listed and nothing has a symbol; below any other node the
    -- siblings go on, under the node itself if it is a function with a name
    rw [listed_eq free] at whole ⊢
    have freeChild : n.isVariableDefinition = false →
        ∀ c ∈ n.children, c.ancestors.all (!isVariableDefinition ·) = true := by
      intro other c step
      rw [ancestors_of_mem_children step, List.all_cons, other, free]
      rfl
    cases own : n.symbol? with
    | none =>
      have declares := n.isSome_symbol?
      rw [own, Option.isSome_none, eq_comm, isDeclaration, Bool.or_eq_false_iff] at declares
      rw [own] at whole
      rw [symbols_of_none own, inner_eq]
      exact linked_siblings n.children
        (fun c step => ih c step (freeChild declares.2 c step) above (under.child declares.1 step))
        before after whole
    | some s =>
      have declares := n.isSome_symbol?
      rw [own, Option.isSome_some, eq_comm] at declares
      rw [own, Option.isSome_some, if_pos rfl] at whole
      rw [Option.isSome_some, if_pos rfl, symbols_of_symbol? own, Symbol.linkedAll_singleton,
        List.singleton_append]
      refine .cons ⟨own, under⟩ ?_
      rcases symbol?_cases own with ⟨kind, name, symbol⟩ | ⟨-, definition, rfl⟩
      · have other := not_isVariableDefinition_of_function kind
        have function : n.isNamedFunction = true := by
          rwa [isDeclaration, other, Bool.or_false] at declares
        have found : nodes[before.length]? = some n := by
          rw [whole]
          simp
        rw [symbol.children, inner_eq]
        have below := linked_siblings n.children (fun c step =>
          ih c step (freeChild other c step) (some before.length)
            (Under.function function found step)) (before ++ [n]) after (by rw [whole]; simp)
        rwa [List.length_append, List.length_singleton] at below
      · have nothing : n.children.flatMap listed = [] := by
          rw [List.flatMap_eq_nil_iff]
          exact fun c step => listed_below_variable definition step
        have leaf : (Symbol.ofVariable n).children = [] := rfl
        rw [nothing, leaf, Symbol.linkedAll_nil]
        exact .nil

/-- The outline lists the nodes of the tree in order, each under the nearest function. -/
theorem linked_root (s : Subtree) :
    List.Forall₂ (Linked (root s).listed) (root s).listed
      (Symbol.linkedAll none 0 (root s).symbols) :=
  linked_symbols (root s) rfl none (.top rfl) [] [] (by simp)

theorem filterMap_symbol? {nodes ns : List Node} {es : List (Option Nat × Symbol)}
    (links : List.Forall₂ (Linked nodes) ns es) : ns.filterMap symbol? = es.map Prod.snd := by
  induction links with
  | nil => rfl
  | cons link _ ih => rw [List.filterMap_cons_some link.1, List.map_cons, ih]

end Node

/-- What the listed nodes of a tree bring in, in the order of the nodes. -/
def Tree.definitions (t : Tree) : List Symbol :=
  (t.nodes.filter Node.isListed).filterMap Node.symbol?

/-- The flattened outline is what the listed nodes bring in. -/
theorem Tree.flatten_eq_definitions {t : Tree} {r : Node} (top : t.root? = some r) :
    Symbol.flatten r.symbols = t.definitions := by
  have nodes : t.nodes = r.preorder := by rw [Tree.nodes, top]
  obtain ⟨s, -, rfl⟩ := Option.map_eq_some_iff.mp top
  rw [definitions, nodes, ← Symbol.map_snd_linkedAll none 0]
  exact (Node.filterMap_symbol? (Node.linked_root s)).symm

/-- The flattened outline of a tree has one symbol for each listed node, in the order of the nodes,
and directly above it stands the symbol of the nearest function with a name around the node. -/
theorem Tree.flatten_listed (t : Tree) (r : Node) (top : t.root? = some r) :
    (Symbol.linkedAll none 0 r.symbols).map Prod.snd = Symbol.flatten r.symbols ∧
      (t.nodes.filter Node.isListed).Nodup ∧
      List.Forall₂ (fun n e => n.Declares e.2 ∧ n.Under (t.nodes.filter Node.isListed) e.1)
        (t.nodes.filter Node.isListed) (Symbol.linkedAll none 0 r.symbols) := by
  have nodes : t.nodes = r.preorder := by rw [Tree.nodes, top]
  obtain ⟨s, -, rfl⟩ := Option.map_eq_some_iff.mp top
  rw [nodes]
  refine ⟨Symbol.map_snd_linkedAll none 0 _, (Node.nodup_preorder _).filter _, ?_⟩
  exact (Node.linked_root s).imp fun n e link => ⟨Node.symbol?_cases link.1, link.2⟩

/-- The span of some characters of a text of one line. -/
def Span.inLine (start stop : Nat) : Span := ⟨⟨start, ⟨0, start⟩⟩, ⟨stop, ⟨0, stop⟩⟩⟩

/-- A function with a variable inside it, in a function without a name, and with another function
inside the variable. -/
def TreeDump.nested : TreeDump where
  source := "f set x g"
  root :=
    ⟨"program", true, .inLine 0 9, [⟨"function_definition", true, .inLine 0 9, [
      ⟨"word", true, .inLine 0 1, []⟩,
      ⟨"function_definition", true, .inLine 2 9, [⟨"function", false, .inLine 2 9, [
        ⟨"command", true, .inLine 2 9, [
          ⟨"word", true, .inLine 2 5, []⟩,
          ⟨"word", true, .inLine 6 9, [⟨"function_definition", true, .inLine 8 9, [
            ⟨"word", true, .inLine 8 9, []⟩]⟩]⟩]⟩]⟩]⟩]⟩]⟩

/-- Neither the function without a name nor the one inside the variable is listed. -/
theorem Tree.flatten_listed_nested :
    ∃ t r, TreeDump.nested.load = .ok t ∧ t.root? = some r ∧
      (t.nodes.filter Node.isListed).map Node.id = [1, 7] ∧
      (Symbol.flatten r.symbols).map Symbol.name = ["f", "x g"] ∧
      List.Forall₂ (fun n e => n.Declares e.2 ∧ n.Under (t.nodes.filter Node.isListed) e.1)
        (t.nodes.filter Node.isListed) (Symbol.linkedAll none 0 r.symbols) := by
  have loaded : TreeDump.nested.load.toOption.any (fun t => t.root?.any fun r =>
      (t.nodes.filter Node.isListed).map Node.id == [1, 7] &&
        (Symbol.flatten r.symbols).map Symbol.name == ["f", "x g"]) = true := by decide +kernel
  cases accepted : TreeDump.nested.load with
  | error fault =>
    rw [accepted] at loaded
    cases loaded
  | ok t =>
    rw [accepted] at loaded
    simp only [Except.toOption, Option.any_some, Option.any_eq_true, Bool.and_eq_true,
      beq_iff_eq] at loaded
    obtain ⟨r, top, ids, names⟩ := loaded
    exact ⟨t, r, rfl, top, ids, names, (flatten_listed t r top).2.2⟩

end FishNav
