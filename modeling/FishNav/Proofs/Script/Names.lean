import FishNav.Proofs.Lines
import FishNav.Proofs.Script.References

/-!
# Names of symbols

A symbol is collected from a node, which gives it its name: what brings in the variable, or the
first named child of the function (`exists_collectedFrom`). No two symbols are selected at one
place, so whatever stands at the selection of a symbol with the symbol's name refers to the symbol
(`find?_of_selection`). The node that is found at the selection need not be the one that the symbol
was collected from, since a function without a name in its head is named by a whole command; but it
has the same range and therefore the same text (`CollectedFrom.exists_node?`). So to go on from a
definition to its definition leads nowhere else (`find?_idempotent`), and from a variable the way
leads back to the very node that brings it in (`node?_token`).
-/
namespace FishNav.Script

open Node (Descends)

variable {source : String} {m n v : Node} {s t : Symbol}

/-! ### Texts -/

/-- The range of a node of a script has the text of the node. -/
theorem inRange?_range (inside : Descends (root source) n) :
    Text.inRange? source.toList n.range = some n.text.toList := by
  obtain ⟨front, parts, stands⟩ := exists_stands inside
  obtain ⟨back, split⟩ := stands.within
  have range : n.range = ⟨(Mark.origin.advance front).position,
      (Mark.origin.advance (front ++ Cst.charsOfAll parts)).position⟩ := by
    rw [Node.range, Node.span, stands.span]
    rfl
  rw [range, split, Text.inRange?_advance, Node.text, stands.spelled, String.toList_ofList]

theorem text_eq_of_range (left : Descends (root source) m) (right : Descends (root source) n)
    (same : m.range = n.range) : m.text = n.text := by
  have text := inRange?_range left
  rw [same, inRange?_range right, Option.some.injEq, String.toList_inj] at text
  exact text.symm

/-! ### Where symbols come from -/

/-- The symbol `s` was collected from `v`, which brings in the variable or is the name of the
function. -/
inductive CollectedFrom (source : String) (s : Symbol) (v : Node) : Prop
  | ofVariable (member : v ∈ (tree source).nodes) (definition : v.isVariableDefinition = true)
      (symbol : s = .ofVariable v)
  | ofFunction (f : Node) (member : f ∈ (tree source).nodes) (kind : f.kind = .functionDefinition)
      (named : f.firstNamedChild? = some v) (symbol : Symbol.ofFunction? f s.children = some s)

theorem ofFunction?_children {f : Node} (function : f.kind = .functionDefinition)
    (own : f.symbol? = some s) : Symbol.ofFunction? f s.children = some s := by
  rw [Node.symbol?, function, Kind.isDefinition, if_pos rfl] at own
  obtain ⟨name, named, rfl⟩ := Option.map_eq_some_iff.mp own
  exact own

/-- The symbol of a function, and the same symbol with nothing in it. -/
theorem ofFunction?_spec {f : Node} {children : List Symbol} (named : f.firstNamedChild? = some v)
    (symbol : Symbol.ofFunction? f children = some s) :
    s.kind = .function ∧ v.range = s.selection ∧ v.text = s.name ∧
      Symbol.ofFunction? f [] = some s.leaf := by
  rw [Symbol.ofFunction?, named, Option.map_some, Option.some.injEq] at symbol
  rw [Symbol.ofFunction?, named, ← symbol]
  exact ⟨rfl, rfl, rfl, rfl⟩

/-- Every symbol of the outline comes from a node of the script. -/
theorem exists_collectedFrom (member : s ∈ Symbol.flatten (root source).symbols) :
    ∃ v, CollectedFrom source s v := by
  obtain ⟨n, inside, own⟩ := Node.exists_of_mem_flatten member
  rcases Node.symbol?_cases own with ⟨function, name, symbol⟩ | ⟨-, definition, same⟩
  · have listed := ofFunction?_children function own
    exact ⟨name, .ofFunction n (mem_nodes_iff.mpr inside) function symbol.named listed⟩
  · exact ⟨n, .ofVariable (mem_nodes_iff.mpr inside) definition same⟩

/-- A symbol has the name and the place of what it was collected from. -/
theorem CollectedFrom.token (collected : CollectedFrom source s v) :
    v.range = s.selection ∧ v.text = s.name := by
  cases collected with
  | ofVariable member definition symbol =>
    subst symbol
    exact ⟨rfl, rfl⟩
  | ofFunction f member kind named symbol =>
    obtain ⟨-, place, text, -⟩ := ofFunction?_spec named symbol
    exact ⟨place, text⟩

theorem CollectedFrom.leaf (collected : CollectedFrom source s v) :
    CollectedFrom source s.leaf v := by
  cases collected with
  | ofVariable member definition symbol =>
    subst symbol
    exact .ofVariable member definition rfl
  | ofFunction f member kind named symbol =>
    obtain ⟨-, -, -, bare⟩ := ofFunction?_spec named symbol
    exact .ofFunction f member kind named bare

/-- Variables are collected from what brings them in. -/
theorem CollectedFrom.of_var (collected : CollectedFrom source s v) (kind : s.kind = .var) :
    Descends (root source) v ∧ v.isVariableDefinition = true ∧ s = .ofVariable v := by
  cases collected with
  | ofVariable member definition symbol => exact ⟨mem_nodes_iff.mp member, definition, symbol⟩
  | ofFunction f member function named symbol =>
    cases kind.symm.trans (ofFunction?_spec named symbol).1

/-- Functions are collected from their names. -/
theorem CollectedFrom.of_function (collected : CollectedFrom source s v)
    (kind : s.kind = .function) : Descends (root source) v ∧ v.isFunctionName = true := by
  cases collected with
  | ofVariable member definition symbol =>
    subst symbol
    cases kind
  | ofFunction f member function named symbol =>
    have step : v ∈ f.children := List.mem_of_find?_eq_some named
    refine ⟨(mem_nodes_iff.mp member).down step, ?_⟩
    simp [Node.isFunctionName, Node.isNameOf, Node.parent?_of_mem_children step, function, named,
      Node.same]

/-! ### What stands at a selection -/

/-- A symbol of a script is known by where its selection starts. -/
theorem eq_of_mem_flatten (left : s ∈ Symbol.flatten (root source).symbols)
    (right : t ∈ Symbol.flatten (root source).symbols)
    (same : s.selection.start = t.selection.start) : s = t := by
  have distinct : ((Symbol.flatten (root source).symbols).map (·.selection.start)).Nodup := by
    rw [List.Nodup, List.pairwise_map]
    exact (flatten_ordered .here).imp ne_of_lt
  exact List.inj_on_of_nodup_map distinct left right same

/-- What stands at the selection of a symbol and has its name refers to the symbol. -/
theorem find?_of_selection (member : s ∈ Symbol.flatten (root source).symbols)
    (other : s.name ≠ "argv") (place : n.range = s.selection) (text : n.text = s.name) :
    Definition.find? (root source) n = some s.leaf := by
  rcases @Definition.find?_cases (root source) n (text ▸ other) with
    ⟨t, member', selection, -, found⟩ | ⟨nothing, -⟩
  · obtain rfl := eq_of_mem_flatten member' member
      (congrArg Range.start (selection.trans place))
    exact found
  · exact absurd text.symm (nothing s member place.symm)

theorem CollectedFrom.inside (collected : CollectedFrom source s v) :
    Descends (root source) v := by
  cases kind : s.kind with
  | function => exact (collected.of_function kind).1
  | var => exact (collected.of_var kind).1

/-- The node at a selection that is not empty has the range and the name of the symbol. It is what
the symbol was collected from, or below that: a command of one word has the range of the word. -/
theorem CollectedFrom.exists_node? (collected : CollectedFrom source s v)
    (strict : s.selection.start < s.selection.stop) :
    ∃ m, s.node? (root source) = some m ∧ Descends v m ∧ m.range = s.selection ∧
      m.text = s.name := by
  have inside := collected.inside
  obtain ⟨selection, name⟩ := collected.token
  rw [← selection] at strict
  obtain ⟨m, found, below⟩ := atRange?_range inside strict
  have within := within_of_descends inside below
  have around : m.start ≤ v.start ∧ v.stop ≤ m.stop :=
    Node.covers_iff.mp (Node.atRange?_spec found).2.1
  have start : m.start = v.start := le_antisymm around.1 within.1
  have stop : m.stop = v.stop := le_antisymm within.2 around.2
  have range : m.range = v.range := by
    change (⟨m.start, m.stop⟩ : Range) = ⟨v.start, v.stop⟩
    rw [start, stop]
  refine ⟨m, by rw [Symbol.node?, ← selection, found], below, range.trans selection, ?_⟩
  rw [text_eq_of_range (inside.trans below) inside range, name]

/-- A variable that is selected is collected from one node. -/
theorem CollectedFrom.eq_of_var (left : CollectedFrom source s v) (right : CollectedFrom source s n)
    (kind : s.kind = .var) (strict : s.selection.start < s.selection.stop) : v = n := by
  obtain ⟨inside, definition, -⟩ := left.of_var kind
  rw [← right.token.1] at strict
  exact eq_of_definition_range inside definition right.inside strict
    (left.token.1.trans right.token.1.symm)

/-- A definition is a symbol of the outline, with a node at its selection. -/
theorem exists_of_find? (text : n.text ≠ "") (other : n.text ≠ "argv")
    (refers : Definition.find? (root source) n = some s) :
    ∃ t ∈ Symbol.flatten (root source).symbols, s = t.leaf ∧ t.name = n.text ∧
      ∃ m, s.node? (root source) = some m ∧ m.range = s.selection ∧ m.text = s.name := by
  have name := Definition.name_of_find? other refers
  obtain ⟨t, member, rfl⟩ := Definition.exists_of_find? refers
  have named : t.name = n.text := name
  obtain ⟨v, collected⟩ := exists_collectedFrom member
  obtain ⟨selection, same⟩ := collected.token
  have strict : t.selection.start < t.selection.stop :=
    selection ▸ start_lt_stop collected.inside (same.trans named ▸ text)
  obtain ⟨m, found, -, place⟩ := collected.exists_node? strict
  exact ⟨t, member, rfl, named, m, found, place⟩

/-- What is referred to has the name of what refers to it, and refers to itself; and a symbol is
what the name that it was collected from refers to. -/
theorem find?_idempotent (source : String) (r : Node) (top : (tree source).root? = some r) :
    (∀ n s, n.text ≠ "" → n.text ≠ "argv" → Definition.find? r n = some s →
        s.name = n.text ∧ ∃ m, s.node? r = some m ∧ Definition.find? r m = some s) ∧
      ∀ s ∈ Symbol.flatten r.symbols, s.name ≠ "" → s.name ≠ "argv" →
        (∃ v, CollectedFrom source s v) ∧
          ∀ v, CollectedFrom source s v → Definition.find? r v = some s.leaf := by
  obtain rfl : root source = r := Option.some.inj ((root?_tree source).symm.trans top)
  constructor
  · intro n s text other refers
    obtain ⟨t, member, rfl, name, m, found, place, word⟩ := exists_of_find? text other refers
    exact ⟨name, m, found, find?_of_selection member (name ▸ other) place word⟩
  · intro s member _ other
    refine ⟨exists_collectedFrom member, fun v collected => ?_⟩
    obtain ⟨place, text⟩ := collected.token
    exact find?_of_selection member other place text

/-- A function without a name in its head is named by the first command in it. A call leads to the
word of that command, which leads to the function again. -/
theorem find?_idempotent_headless :
    ∃ r n s m, (tree "function\nfoo\nend\nfoo").root? = some r ∧
      n ∈ (tree "function\nfoo\nend\nfoo").nodes ∧ n.text = "foo" ∧ n.start = ⟨3, 0⟩ ∧
      Definition.find? r n = some s ∧ s.name = n.text ∧ s.node? r = some m ∧ m.kind = .word ∧
      m.start = ⟨1, 0⟩ ∧ Definition.find? r m = some s ∧
      ∃ t ∈ Symbol.flatten r.symbols, ∃ v, t.name = "foo" ∧
        CollectedFrom "function\nfoo\nend\nfoo" t v ∧ Definition.find? r v = some t.leaf := by
  have found : ((tree "function\nfoo\nend\nfoo").nodes.any fun n =>
      n.text == "foo" && n.start == ⟨3, 0⟩ &&
        (Definition.find? (root "function\nfoo\nend\nfoo") n).any fun s =>
          (s.node? (root "function\nfoo\nend\nfoo")).any fun m =>
            m.kind == .word && m.start == ⟨1, 0⟩) = true := by decide +kernel
  have symbols : ((Symbol.flatten (root "function\nfoo\nend\nfoo").symbols).any fun t =>
      t.name == "foo") = true := by decide +kernel
  obtain ⟨again, own⟩ := find?_idempotent _ _ (root?_tree "function\nfoo\nend\nfoo")
  obtain ⟨n, member, shape⟩ := List.any_eq_true.mp found
  simp only [Bool.and_eq_true, beq_iff_eq, Option.any_eq_true] at shape
  obtain ⟨⟨text, start⟩, s, refers, m, node, kind, place⟩ := shape
  obtain ⟨name, m', node', same⟩ := again n s (by simp [text]) (by simp [text]) refers
  obtain rfl := Option.some.inj (node.symm.trans node')
  obtain ⟨t, listed, named⟩ := List.any_eq_true.mp symbols
  rw [beq_iff_eq] at named
  obtain ⟨⟨v, collected⟩, refers'⟩ := own t listed (by simp [named]) (by simp [named])
  exact ⟨_, n, s, m, root?_tree _, member, text, start, refers, name, node, kind, place, same,
    t, listed, v, named, collected, refers' v collected⟩

/-- Every symbol with a selection that is not empty leads back to a node with its range and its
name. For a variable that is the one node from which it was collected; for a function it is the
name or a part of it with the same range. -/
theorem node?_token (source : String) (r : Node) (top : (tree source).root? = some r) (s : Symbol)
    (member : s ∈ Symbol.flatten r.symbols) (selected : s.selection.start ≠ s.selection.stop) :
    ∃ m ∈ (tree source).nodes, s.node? r = some m ∧ m.range = s.selection ∧ m.text = s.name ∧
      (∃ v, CollectedFrom source s v ∧ (v = m ∨ v ∈ m.ancestors)) ∧
      (s.kind = .var → ∀ v, CollectedFrom source s v ↔ v = m) := by
  obtain rfl : root source = r := Option.some.inj ((root?_tree source).symm.trans top)
  obtain ⟨v, collected⟩ := exists_collectedFrom member
  have strict : s.selection.start < s.selection.stop := by
    refine lt_of_le_of_ne ?_ selected
    rw [← collected.token.1]
    exact start_le_stop collected.inside
  obtain ⟨m, found, below, range, text⟩ := collected.exists_node? strict
  refine ⟨m, mem_nodes_iff.mpr (collected.inside.trans below), found, range, text,
    ⟨v, collected, below.eq_or_mem_ancestors⟩, fun kind => ?_⟩
  -- what brings in a variable has no parts
  obtain ⟨inside, definition, -⟩ := collected.of_var kind
  obtain rfl := eq_of_leaf inside (leaf_of_definition definition).1 below
  intro w
  constructor
  · intro other
    exact other.eq_of_var collected kind strict
  · rintro rfl
    exact collected

/-- The name ends where the parenthesis starts, and behind it all there is the empty place of a
keyword that is missing. -/
theorem node?_token_touching :
    ∃ r s m, (tree "function f\necho (read y)").root? = some r ∧ s ∈ Symbol.flatten r.symbols ∧
      s.kind = .var ∧ s.name = "y" ∧ s.selection = ⟨⟨1, 11⟩, ⟨1, 12⟩⟩ ∧ s.node? r = some m ∧
      m.text = "y" ∧ CollectedFrom "function f\necho (read y)" s m := by
  have symbols : ((Symbol.flatten (root "function f\necho (read y)").symbols).any fun s =>
      s.kind == .var && s.name == "y" && s.selection == ⟨⟨1, 11⟩, ⟨1, 12⟩⟩) = true := by
    decide +kernel
  obtain ⟨s, member, shape⟩ := List.any_eq_true.mp symbols
  simp only [Bool.and_eq_true, beq_iff_eq] at shape
  obtain ⟨⟨kind, name⟩, selection⟩ := shape
  obtain ⟨m, -, found, -, text, -, only⟩ := node?_token _ _ (root?_tree _) s member
    (by rw [selection]; decide)
  exact ⟨_, s, m, root?_tree _, member, kind, name, selection, found, text.trans name,
    (only kind m).mpr rfl⟩

end FishNav.Script
