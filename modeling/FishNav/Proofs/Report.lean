import FishNav.Proofs.Command.Run
import FishNav.Proofs.Symbol.Outline
import FishNav.Proofs.Tree.Load

/-!
# Printed places, read back

What is printed of a symbol names its two ranges in coordinates that count from one. The tree that
a JSON text holds has 32-bit coordinates (`Tree.isWord_of_ofJson`), and so have its symbols
(`Node.isWord_of_mem_flatten`). The greatest word has no next one, and a symbol with this coordinate
cannot be printed, nor can one above it (`Report.exists_symbols?_iff`); what is printed gives back
the ranges of the symbol (`Report.readSymbol?_of_symbol?`). Nothing that loads a tree keeps the
greatest word out, and the program stops when it comes upon it (`Report.symbols_read_back`,
`Report.read_back_fails`).
-/
namespace FishNav

/-! ### Words -/

namespace Position

/-- Both coordinates are 32-bit words. -/
def IsWord (p : Position) : Prop := p.line < wordSize ∧ p.column < wordSize

instance (p : Position) : Decidable p.IsWord := inferInstanceAs (Decidable (_ ∧ _))

/-- Neither coordinate is the greatest word or above it. -/
def HasNext (p : Position) : Prop := p.line + 1 < wordSize ∧ p.column + 1 < wordSize

instance (p : Position) : Decidable p.HasNext := inferInstanceAs (Decidable (_ ∧ _))

/-- Counting from one is possible up to the word before the greatest. -/
theorem next?_eq_some_iff {x y : Nat} : next? x = some y ↔ x + 1 < wordSize ∧ y = x + 1 := by
  unfold next?
  split
  · next small => simp [small, eq_comm]
  · next large => simp [large]

/-- A position is shown exactly if both coordinates can be counted from one. -/
theorem display?_eq_some_iff {p : Position} {line column : Nat} :
    p.display? = some (line, column) ↔
      p.HasNext ∧ line = p.line + 1 ∧ column = p.column + 1 := by
  simp only [display?, HasNext, Option.bind_eq_bind, Option.bind_eq_some_iff, Option.pure_def,
    Option.some.injEq, Prod.mk.injEq, next?_eq_some_iff]
  constructor
  · rintro ⟨_, ⟨low, rfl⟩, _, ⟨low', rfl⟩, rfl, rfl⟩
    exact ⟨⟨low, low'⟩, rfl, rfl⟩
  · rintro ⟨⟨low, low'⟩, rfl, rfl⟩
    exact ⟨_, ⟨low, rfl⟩, _, ⟨low', rfl⟩, rfl, rfl⟩

end Position

namespace Range

def IsWord (r : Range) : Prop := r.start.IsWord ∧ r.stop.IsWord

instance (r : Range) : Decidable r.IsWord := inferInstanceAs (Decidable (_ ∧ _))

def HasNext (r : Range) : Prop := r.start.HasNext ∧ r.stop.HasNext

instance (r : Range) : Decidable r.HasNext := inferInstanceAs (Decidable (_ ∧ _))

end Range

/-- No coordinate of the two ranges of a symbol is the greatest word or above it. -/
def Symbol.HasNext (s : Symbol) : Prop := s.range.HasNext ∧ s.selection.HasNext

instance (s : Symbol) : Decidable s.HasNext := inferInstanceAs (Decidable (_ ∧ _))

/-! ### Trees from JSON -/

/-- All points of a dump are pairs of words. -/
inductive Dump.InWords : Dump → Prop
  | node {d : Dump} (here : d.span.range.IsWord) (below : ∀ c ∈ d.children, InWords c) : InWords d

namespace TreeDump

theorem lt_of_natBelow? {bound n : Nat} {v : Json} (read : v.natBelow? bound = some n) :
    n < bound := by
  unfold Json.natBelow? at read
  split at read
  · split at read
    · next low => exact Option.some.inj read ▸ low
    · cases read
  · cases read

theorem isWord_of_point? {v : Json} {p : Position} (read : point? v = some p) : p.IsWord := by
  unfold point? at read
  split at read
  · simp only [Option.bind_eq_bind, Option.bind_eq_some_iff, Option.pure_def,
      Option.some.injEq] at read
    obtain ⟨row, -, column, -, x, low, y, low', rfl⟩ := read
    exact ⟨lt_of_natBelow? low, lt_of_natBelow? low'⟩
  · simp only [Option.bind_eq_bind, Option.bind_eq_some_iff, Option.pure_def,
      Option.some.injEq] at read
    obtain ⟨x, low, y, low', rfl⟩ := read
    exact ⟨lt_of_natBelow? low, lt_of_natBelow? low'⟩
  · cases read

theorem isWord_of_span? {a b c d : Json} {span : Span} (read : span? a b c d = some span) :
    span.range.IsWord := by
  simp only [span?, Option.bind_eq_bind, Option.bind_eq_some_iff, Option.pure_def,
    Option.some.injEq] at read
  obtain ⟨x, -, p, start, y, -, q, stop, rfl⟩ := read
  exact ⟨isWord_of_point? start, isWord_of_point? stop⟩

theorem exists_of_mapM {α β : Type} {f : α → Option β} {xs : List α} {ys : List β} {y : β}
    (all : xs.mapM f = some ys) (member : y ∈ ys) : ∃ x ∈ xs, f x = some y := by
  induction xs generalizing ys with
  | nil =>
    rw [List.mapM_nil, Option.pure_def, Option.some.injEq] at all
    rw [← all] at member
    cases member
  | cons x xs ih =>
    simp only [List.mapM_cons, Option.bind_eq_bind, Option.bind_eq_some_iff, Option.pure_def,
      Option.some.injEq] at all
    obtain ⟨z, first, zs, more, rfl⟩ := all
    rcases List.mem_cons.mp member with rfl | later
    · exact ⟨x, List.mem_cons_self, first⟩
    · obtain ⟨x', there, found⟩ := ih more later
      exact ⟨x', List.mem_cons_of_mem x there, found⟩

/-- The reader of dumps lets only words pass as coordinates, at every depth. -/
theorem inWords_of_node? {depth : Nat} {v : Json} {d : Dump} (read : node? depth v = some d) :
    d.InWords := by
  induction depth using Nat.strongRecOn generalizing v d with
  | ind depth ih =>
    have children : ∀ {k : Nat} {vs : List Json} {ds : List Dump}, k < depth →
        vs.mapM (node? k) = some ds → ∀ c ∈ ds, c.InWords := by
      intro k vs ds less all c member
      obtain ⟨u, -, child⟩ := exists_of_mapM all member
      exact ih k less child
    unfold node? at read
    split at read
    · simp only [Option.bind_eq_bind, Option.bind_eq_some_iff, Option.pure_def,
        Option.some.injEq] at read
      obtain ⟨_, -, _, -, _, -, _, -, _, -, _, -, _, -, _, -, _, -, span, points, _, -, _, below,
        rfl⟩ := read
      exact .node (isWord_of_span? points) (children (by omega) below)
    · simp only [Option.bind_eq_bind, Option.pure_def] at read
      split at read
      · simp only [Option.bind_eq_some_iff, Option.some.injEq] at read
        obtain ⟨_, -, _, -, _, -, span, points, _, below, rfl⟩ := read
        exact .node (isWord_of_span? points) (children (by omega) below)
      · simp only [Option.bind_eq_some_iff, Option.some.injEq] at read
        obtain ⟨_, -, _, -, _, -, span, points, _, below, rfl⟩ := read
        exact .node (isWord_of_span? points) (children (by omega) below)
      · cases read
    · cases read

theorem inWords_of_ofJson? {v : Json} {d : TreeDump} (read : ofJson? v = some d) :
    d.root.InWords := by
  unfold ofJson? at read
  split at read
  · simp only [Option.bind_eq_bind, Option.bind_eq_some_iff, Option.pure_def,
      Option.some.injEq] at read
    obtain ⟨_, -, _, -, _, -, root, node, rfl⟩ := read
    exact inWords_of_node? node
  · simp only [Option.bind_eq_bind, Option.bind_eq_some_iff, Option.pure_def,
      Option.some.injEq] at read
    obtain ⟨_, -, root, node, rfl⟩ := read
    exact inWords_of_node? node
  · cases read

end TreeDump

theorem Dump.exists_of_mem_subtrees {text : List Char} {id : Nat} {ds : List Dump} {s : Subtree}
    (member : s ∈ subtrees text id ds) : ∃ d ∈ ds, ∃ id', s = d.subtree text id' := by
  induction ds generalizing id with
  | nil =>
    rw [subtrees] at member
    cases member
  | cons d ds ih =>
    rw [subtrees, List.mem_cons] at member
    rcases member with rfl | later
    · exact ⟨d, List.mem_cons_self, id, rfl⟩
    · obtain ⟨d', there, id', same⟩ := ih later
      exact ⟨d', List.mem_cons_of_mem d there, id', same⟩

/-- Every node below the root of a dump was dumped. -/
theorem Node.exists_dump {text : List Char} {d : Dump} {id : Nat} {n : Node} (words : d.InWords)
    (way : Descends (.root (d.subtree text id)) n) :
    ∃ e : Dump, e.InWords ∧ ∃ id', n.self = e.subtree text id' := by
  induction way with
  | here => exact ⟨d, words, id, rfl⟩
  | down way step ih =>
    obtain ⟨e, words', id', self⟩ := ih
    obtain ⟨i, s, found, rfl⟩ := mem_children_iff.mp step
    cases words' with
    | node here below =>
      cases e with
      | mk tag named span children =>
        rw [self, Dump.subtree] at found
        obtain ⟨c, member, id'', same⟩ :=
          Dump.exists_of_mem_subtrees (List.mem_of_getElem? found)
        exact ⟨c, below c member, id'', same⟩

/-- A text that holds a tree gives it a root, and all its nodes have 32-bit coordinates. -/
theorem Tree.isWord_of_ofJson {text : String} {t : Tree} (loaded : Tree.ofJson text = .ok t) :
    ∃ s, t.root? = some (.root s) ∧ ∀ n, Node.Descends (.root s) n → n.range.IsWord := by
  unfold Tree.ofJson at loaded
  split at loaded
  · cases loaded
  · next d read =>
    obtain ⟨v, -, read⟩ := Option.bind_eq_some_iff.mp read
    cases built : d.load with
    | error fault =>
      rw [built] at loaded
      cases loaded
    | ok t' =>
      rw [built] at loaded
      obtain rfl := Except.ok.inj loaded
      refine ⟨_, (TreeDump.root?_of_load built).2, fun n way => ?_⟩
      obtain ⟨e, words, id, self⟩ := Node.exists_dump (TreeDump.inWords_of_ofJson? read) way
      cases words with
      | node here =>
        cases e with
        | mk tag named span children =>
          rw [Node.range, Node.span, self, Dump.subtree]
          exact here

/-! ### Symbols -/

namespace Node

variable {s : Subtree} {n : Node}

theorem descends_of_mem_before {c : Node} (inside : Descends (.root s) n) (member : c ∈ n.before) :
    Descends (.root s) c := by
  cases inside with
  | here => cases member
  | down way step =>
    obtain ⟨i, t, -, rfl⟩ := mem_children_iff.mp step
    exact way.down (List.mem_of_mem_take (List.mem_reverse.mp member))

/-- The comments above a node are nodes too, so the range with them is in words. -/
theorem isWord_of_commentedRange (words : ∀ n, Descends (.root s) n → n.range.IsWord)
    (inside : Descends (.root s) n) : n.commentedRange.IsWord := by
  unfold commentedRange
  split
  · exact words n inside
  · next first last =>
    have run := (List.takeWhile_sublist _).subset (List.mem_of_getLast? last)
    have inside' := descends_of_mem_before inside (List.mem_filter.mp run).1
    exact ⟨(words first inside').1, (words n inside).2⟩

theorem descends_declaration (inside : Descends (.root s) n) :
    Descends (.root s) n.declaration := by
  unfold declaration
  split
  · next p parent =>
    split
    · exact (inside.of_parent? parent).1
    · exact inside
  · exact inside

/-- The ranges of a symbol run between nodes, so with them they are pairs of words. -/
theorem isWord_of_mem_flatten {symbol : Symbol}
    (words : ∀ n, Descends (.root s) n → n.range.IsWord)
    (member : symbol ∈ Symbol.flatten (Node.root s).symbols) :
    symbol.range.IsWord ∧ symbol.selection.IsWord := by
  obtain ⟨m, way, own⟩ := exists_of_mem_flatten member
  rcases symbol?_cases own with ⟨-, name, function⟩ | ⟨-, -, rfl⟩
  · have step : name ∈ m.children := List.mem_of_find?_eq_some function.named
    rw [function.range, function.selection]
    exact ⟨isWord_of_commentedRange words way, words name (way.down step)⟩
  · exact ⟨isWord_of_commentedRange words (descends_declaration way), words m way⟩

end Node

/-! ### What is printed -/

namespace Report

def coordinate? (key : String) (v : Json) : Option Nat :=
  (v.get? key).bind (Json.natBelow? Position.wordSize)

def readRange? (v : Json) : Option Range := do
  let line ← coordinate? "line" v
  let column ← coordinate? "column" v
  let endLine ← coordinate? "end_line" v
  let endColumn ← coordinate? "end_column" v
  return ⟨.ofDisplay line column, .ofDisplay endLine endColumn⟩

def readSymbol? (v : Json) : Option (Range × Range) := do
  let range ← (v.get? "location").bind readRange?
  let selection ← (v.get? "selection").bind readRange?
  return (range, selection)

/-- `v` is one of the printed symbols `vs` or is printed below one of them. -/
inductive Prints : List Json → Json → Prop
  | here {vs : List Json} {v : Json} (member : v ∈ vs) : Prints vs v
  | inside {vs items : List Json} {u v : Json} (member : u ∈ vs)
      (children : u.get? "children" = some (.arr items)) (deeper : Prints items v) : Prints vs v

section

variable {file : String}

/-- The printed form of a range, and when there is one. -/
theorem range?_eq_some_iff {r : Range} {text? : Option String} {v : Json} :
    range? file r text? = some v ↔
      r.HasNext ∧ v = .obj (
        [("column", .nat (r.start.column + 1)), ("end_column", .nat (r.stop.column + 1)),
          ("end_line", .nat (r.stop.line + 1)), ("file", .str file),
          ("line", .nat (r.start.line + 1))] ++
        (text?.map fun text => ("text", .str text)).toList) := by
  simp only [range?, Range.HasNext, Option.bind_eq_bind, Option.bind_eq_some_iff, Option.pure_def,
    Option.some.injEq, Prod.exists, Position.display?_eq_some_iff]
  constructor
  · rintro ⟨_, _, ⟨start, rfl, rfl⟩, _, _, ⟨stop, rfl, rfl⟩, rfl⟩
    exact ⟨⟨start, stop⟩, rfl⟩
  · rintro ⟨⟨start, stop⟩, rfl⟩
    exact ⟨_, _, ⟨start, rfl, rfl⟩, _, _, ⟨stop, rfl, rfl⟩, rfl⟩

theorem exists_range?_iff (file : String) (r : Range) (text? : Option String) :
    (∃ v, range? file r text? = some v) ↔ r.HasNext := by
  simp [range?_eq_some_iff]

/-- What is printed of a range names that range. -/
theorem readRange?_of_range? {r : Range} {text? : Option String} {v : Json}
    (printed : range? file r text? = some v) : readRange? v = some r := by
  obtain ⟨⟨start, stop⟩, rfl⟩ := range?_eq_some_iff.mp printed
  cases text? <;>
    simp [readRange?, coordinate?, Json.get?, Json.natBelow?, start.1, start.2, stop.1, stop.2,
      Position.ofDisplay]

/-- A symbol is printed from its two ranges and from what is printed below it. -/
theorem exists_of_symbol? {s : Symbol} {v : Json} (printed : symbol? file s = some v) :
    ∃ location selected below,
      range? file s.range none = some location ∧ range? file s.selection none = some selected ∧
        symbols? file s.children = some below ∧
        v = .obj (
          (if below.isEmpty then [] else [("children", .arr below)]) ++
          (s.detail.map fun text => ("detail", .str text)).toList ++
          [("kind", .str s.kind.name), ("location", location), ("name", .str s.name),
            ("selection", selected)]) := by
  cases s with
  | mk name kind r selection detail children =>
    simp only [symbol?, Option.bind_eq_bind, Option.bind_eq_some_iff, Option.pure_def,
      Option.some.injEq] at printed
    obtain ⟨location, place, selected, name, below, inside, rfl⟩ := printed
    exact ⟨location, selected, below, place, name, inside, rfl⟩

theorem get?_children {s : Symbol} {v : Json} {below : List Json}
    (printed : symbol? file s = some v) (inside : symbols? file s.children = some below) :
    v.get? "children" = if below.isEmpty then none else some (.arr below) := by
  obtain ⟨location, selected, below', -, -, inside', rfl⟩ := exists_of_symbol? printed
  obtain rfl : below = below' := Option.some.inj (inside.symm.trans inside')
  cases below <;> cases s.detail <;> simp [Json.get?]

/-- What is printed of a symbol names its two ranges. -/
theorem readSymbol?_of_symbol? {s : Symbol} {v : Json} (printed : symbol? file s = some v) :
    readSymbol? v = some (s.range, s.selection) := by
  obtain ⟨location, selected, below, place, name, -, rfl⟩ := exists_of_symbol? printed
  have range := readRange?_of_range? place
  have selection := readRange?_of_range? name
  cases below <;> cases s.detail <;> simp [readSymbol?, Json.get?, range, selection]

/-! Which symbols can be printed. -/

/-- A symbol is printed exactly if its own ranges can be shown and the symbols below it are. -/
theorem exists_symbol?_iff {s : Symbol} :
    (∃ v, symbol? file s = some v) ↔
      s.HasNext ∧ ∃ below, symbols? file s.children = some below := by
  rw [Symbol.HasNext, ← exists_range?_iff file s.range none,
    ← exists_range?_iff file s.selection none]
  cases s with
  | mk name kind r selection detail children =>
    simp only [symbol?, Option.bind_eq_bind, Option.bind_eq_some_iff, Option.pure_def,
      Option.some.injEq]
    constructor
    · rintro ⟨_, location, place, selected, name, below, inside, -⟩
      exact ⟨⟨⟨location, place⟩, selected, name⟩, below, inside⟩
    · rintro ⟨⟨⟨location, place⟩, selected, name⟩, below, inside⟩
      exact ⟨_, location, place, selected, name, below, inside, rfl⟩

theorem symbols?_cons_eq_some_iff {s : Symbol} {ss : List Symbol} {vs : List Json} :
    symbols? file (s :: ss) = some vs ↔
      ∃ v more, symbol? file s = some v ∧ symbols? file ss = some more ∧ vs = v :: more := by
  simp only [symbols?, Option.bind_eq_bind, Option.bind_eq_some_iff, Option.pure_def,
    Option.some.injEq]
  constructor
  · rintro ⟨v, first, more, rest, rfl⟩
    exact ⟨v, more, first, rest, rfl⟩
  · rintro ⟨v, more, first, rest, rfl⟩
    exact ⟨v, first, more, rest, rfl⟩

theorem symbols?_append_eq_some_iff {ss ts : List Symbol} {vs : List Json} :
    symbols? file (ss ++ ts) = some vs ↔
      ∃ us ws, symbols? file ss = some us ∧ symbols? file ts = some ws ∧ vs = us ++ ws := by
  induction ss generalizing vs with
  | nil => simp [symbols?, eq_comm]
  | cons s ss ih =>
    simp only [List.cons_append, symbols?_cons_eq_some_iff, ih]
    constructor
    · rintro ⟨v, _, first, ⟨us, ws, left, right, rfl⟩, rfl⟩
      exact ⟨v :: us, ws, ⟨v, us, first, left, rfl⟩, right, rfl⟩
    · rintro ⟨_, ws, ⟨v, us, first, left, rfl⟩, right, rfl⟩
      exact ⟨v, us ++ ws, first, ⟨us, ws, left, right, rfl⟩, rfl⟩

/-- A forest can be printed if this holds of every coordinate in it. -/
theorem exists_symbols?_iff {ss : List Symbol} :
    (∃ vs, symbols? file ss = some vs) ↔ ∀ s ∈ Symbol.flatten ss, s.HasNext := by
  fun_induction Symbol.flatten ss with
  | case1 => simp [symbols?]
  | case2 s waiting ih =>
    rw [List.forall_mem_cons, ← ih]
    constructor
    · rintro ⟨_, printed⟩
      obtain ⟨v, more, first, rest, -⟩ := symbols?_cons_eq_some_iff.mp printed
      obtain ⟨next, below, inside⟩ := exists_symbol?_iff.mp ⟨v, first⟩
      exact ⟨next, _, symbols?_append_eq_some_iff.mpr ⟨below, more, inside, rest, rfl⟩⟩
    · rintro ⟨next, _, printed⟩
      obtain ⟨below, more, inside, rest, -⟩ := symbols?_append_eq_some_iff.mp printed
      obtain ⟨v, first⟩ := exists_symbol?_iff.mpr ⟨next, below, inside⟩
      exact ⟨_, symbols?_cons_eq_some_iff.mpr ⟨v, more, first, rest, rfl⟩⟩

/-- The printing fails exactly if some symbol, at any depth, has a coordinate without a next one. -/
theorem symbols?_eq_none_iff {ss : List Symbol} :
    symbols? file ss = none ↔ ∃ s ∈ Symbol.flatten ss, ¬ s.HasNext := by
  rw [Option.eq_none_iff_forall_ne_some, ← not_exists, exists_symbols?_iff]
  simp only [not_forall, exists_prop]

theorem exists_symbol?_iff_flatten {s : Symbol} :
    (∃ v, symbol? file s = some v) ↔ ∀ t ∈ Symbol.flatten [s], t.HasNext := by
  rw [exists_symbol?_iff, exists_symbols?_iff, Symbol.flatten_singleton, List.forall_mem_cons]

/-! What is printed of a forest. -/

/-- No printed form comes from nowhere, and none is lost. -/
theorem mem_iff_of_symbols? {ss : List Symbol} {vs : List Json} {v : Json}
    (printed : symbols? file ss = some vs) : v ∈ vs ↔ ∃ s ∈ ss, symbol? file s = some v := by
  induction ss generalizing vs with
  | nil =>
    obtain rfl : [] = vs := by simpa [symbols?] using printed
    simp
  | cons s ss ih =>
    obtain ⟨u, more, first, rest, rfl⟩ := symbols?_cons_eq_some_iff.mp printed
    simp [ih rest, first, eq_comm]

theorem Prints.append {us vs : List Json} {v : Json} (prints : Prints (us ++ vs) v) :
    Prints us v ∨ Prints vs v := by
  cases prints with
  | here member => exact (List.mem_append.mp member).imp .here .here
  | inside member children deeper =>
    exact (List.mem_append.mp member).imp (.inside · children deeper) (.inside · children deeper)

theorem Prints.mono {us vs : List Json} {v : Json} (prints : Prints us v) (within : us ⊆ vs) :
    Prints vs v := by
  cases prints with
  | here member => exact .here (within member)
  | inside member children deeper => exact .inside (within member) children deeper

theorem not_prints_nil {v : Json} : ¬ Prints [] v := by
  intro prints
  cases prints with
  | here absent => cases absent
  | inside absent => cases absent

/-- All symbols of a forest are printed, each below the one that it is inside of, and nothing
else. -/
theorem prints_iff {ss : List Symbol} {vs : List Json} {v : Json}
    (printed : symbols? file ss = some vs) :
    Prints vs v ↔ ∃ s ∈ Symbol.flatten ss, symbol? file s = some v := by
  constructor
  · intro prints
    induction prints generalizing ss with
    | here member =>
      obtain ⟨s, listed, own⟩ := (mem_iff_of_symbols? printed).mp member
      exact ⟨s, Symbol.mem_flatten_of_mem listed, own⟩
    | @inside vs items u v member children deeper ih =>
      obtain ⟨s, listed, own⟩ := (mem_iff_of_symbols? printed).mp member
      obtain ⟨-, below, inside⟩ := exists_symbol?_iff.mp ⟨u, own⟩
      rw [get?_children own inside] at children
      split at children
      · cases children
      · obtain rfl := Json.arr.inj (Option.some.inj children)
        obtain ⟨t, listed', own'⟩ := ih inside
        exact ⟨t, Symbol.mem_flatten_trans (Symbol.mem_flatten_of_mem listed) listed', own'⟩
  · rintro ⟨s, member, own⟩
    fun_induction Symbol.flatten ss generalizing vs with
    | case1 => cases member
    | case2 t waiting ih =>
      obtain ⟨u, more, first, rest, rfl⟩ := symbols?_cons_eq_some_iff.mp printed
      rcases List.mem_cons.mp member with rfl | later
      · obtain rfl := Option.some.inj (own.symm.trans first)
        exact .here List.mem_cons_self
      · obtain ⟨-, below, inside⟩ := exists_symbol?_iff.mp ⟨u, first⟩
        have deeper := ih (symbols?_append_eq_some_iff.mpr ⟨below, more, inside, rest, rfl⟩) later
        rcases deeper.append with down | beside
        · refine .inside List.mem_cons_self ?_ down
          rw [get?_children first inside, if_neg]
          intro none
          rw [List.isEmpty_iff.mp none] at down
          exact not_prints_nil down
        · exact beside.mono (List.subset_cons_self u more)

end

/-- The symbols of a tree that a JSON text holds have 32-bit coordinates. A symbol is printed just
when no coordinate of it or of a symbol inside it is the greatest word, and then what is printed
gives back its two ranges. So all symbols are printed, at every depth, or the program stops at an
overflow and prints nothing. -/
theorem symbols_read_back (file text : String) (t : Tree) (loaded : Tree.ofJson text = .ok t) :
    ∃ r, t.root? = some r ∧
      (∀ s ∈ Symbol.flatten r.symbols, s.range.IsWord ∧ s.selection.IsWord ∧
        ((∃ v, symbol? file s = some v) ↔ ∀ u ∈ Symbol.flatten [s], u.HasNext) ∧
        ∀ v, symbol? file s = some v → readSymbol? v = some (s.range, s.selection)) ∧
      (symbols? file r.symbols = none ↔ ∃ s ∈ Symbol.flatten r.symbols, ¬ s.HasNext) ∧
      (∀ vs, symbols? file r.symbols = some vs →
        ∀ v, Prints vs v ↔ ∃ s ∈ Symbol.flatten r.symbols, symbol? file s = some v) ∧
      ∀ cwd env args pretty path path? d,
        CommandLine.parse args = .ok ⟨pretty, .symbols path path? none false⟩ →
        d.read path = .ok text →
        ((CommandLine.run cwd env args).run d = (CommandLine.stopped, d) ↔
          ∃ s ∈ Symbol.flatten r.symbols, ¬ s.HasNext) := by
  obtain ⟨root, top, words⟩ := Tree.isWord_of_ofJson loaded
  refine ⟨.root root, top, fun s member => ?_, symbols?_eq_none_iff,
    fun vs printed v => prints_iff printed, ?_⟩
  · obtain ⟨range, selection⟩ := Node.isWord_of_mem_flatten words member
    exact ⟨range, selection, exists_symbol?_iff_flatten, fun v => readSymbol?_of_symbol?⟩
  · intro cwd env args pretty path path? d parsed there
    rw [CommandLine.run_symbols_eq_stopped_iff cwd env parsed there loaded top,
      symbols?_eq_none_iff]
    rfl

/-- A function inside a function that stops at the greatest column that can be printed. -/
def nearLimit : String :=
  "[\"fg\",[\"program\",true,0,2,[0,0],[0,4294967294],[" ++
  "[\"function_definition\",true,0,2,[0,0],[0,4294967294],[[\"word\",true,0,1,[0,0],[0,1]]," ++
  "[\"function_definition\",true,1,2,[0,1],[0,4294967294]," ++
  "[[\"word\",true,1,2,[0,1],[0,4294967294]]]]]]]]]"

/-- Two functions, one in the other, up to the greatest column that can be printed. -/
theorem symbols_read_back_nested :
    ∃ t r s v vs, Tree.ofJson nearLimit = .ok t ∧ t.root? = some r ∧ s.name = "g" ∧
      s.range = .ofCoordinates 0 1 0 4294967294 ∧ symbols? "f" r.symbols = some vs ∧
      symbol? "f" s = some v ∧ Prints vs v ∧ readSymbol? v = some (s.range, s.selection) := by
  have accepted : (Tree.ofJson nearLimit).toOption.any (fun t => t.root?.any fun r =>
      ((Symbol.flatten r.symbols).all fun s => decide s.HasNext) &&
      (Symbol.flatten r.symbols).any fun s => s.name == "g" &&
        s.range == .ofCoordinates 0 1 0 4294967294 && s.children.isEmpty) = true := by
    decide +kernel
  obtain ⟨t, loaded, holds⟩ := exists_ok_of_any accepted
  obtain ⟨r, top, each, none, printed, -⟩ := symbols_read_back "f" nearLimit t loaded
  rw [top, Option.any_some] at holds
  simp only [Bool.and_eq_true, List.all_eq_true, List.any_eq_true, decide_eq_true_eq, beq_iff_eq,
    List.isEmpty_iff] at holds
  obtain ⟨fits, s, member, ⟨name, range⟩, childless⟩ := holds
  obtain ⟨-, -, one, back⟩ := each s member
  obtain ⟨v, own⟩ := one.mpr (by
    simpa [Symbol.flatten_singleton, childless, Symbol.flatten_nil] using fits s member)
  obtain ⟨vs, all⟩ := Option.ne_none_iff_exists'.mp fun overflow => by
    obtain ⟨u, listed, last⟩ := none.mp overflow
    exact last (fits u listed)
  exact ⟨t, r, s, v, vs, loaded, top, name, range, all, own,
    (printed vs all v).mpr ⟨s, member, own⟩, back v own⟩

/-- A function that stops one column further. -/
def atLimit : String :=
  "[\"f\",[\"program\",true,0,1,[0,0],[0,4294967295],[" ++
  "[\"function_definition\",true,0,1,[0,0],[0,4294967295]," ++
  "[[\"word\",true,0,1,[0,0],[0,4294967295]]]]]]]"

def limitDisk : Disk := ⟨[(["tree.json"], atLimit)], [], "/"⟩

/-- Its end has no column that counts from one, and the program stops when it is asked for the
symbols. -/
theorem read_back_fails :
    ∃ t r s, Tree.ofJson atLimit = .ok t ∧ t.root? = some r ∧ s ∈ Symbol.flatten r.symbols ∧
      s.range = .ofCoordinates 0 0 0 4294967295 ∧ s.selection = s.range ∧
      symbol? "tree.json" s = none ∧
      (CommandLine.run "/" ⟨[], none⟩ ["symbols", "tree.json"]).run limitDisk =
        (CommandLine.stopped, limitDisk) := by
  have accepted : (Tree.ofJson atLimit).toOption.any (fun t => t.root?.any fun r =>
      (Symbol.flatten r.symbols).any fun s =>
        s.range == .ofCoordinates 0 0 0 4294967295 && s.selection == s.range &&
        (symbol? "tree.json" s).isNone && !decide s.HasNext) = true := by decide +kernel
  have there : limitDisk.read "tree.json" = .ok atLimit := eq_ok_of_toOption (by decide +kernel)
  obtain ⟨t, loaded, holds⟩ := exists_ok_of_any accepted
  obtain ⟨r, top, found⟩ := (Option.any_eq_true _ _).mp holds
  simp only [List.any_eq_true, Bool.and_eq_true, beq_iff_eq, Option.isNone_iff_eq_none,
    Bool.not_eq_true', decide_eq_false_iff_not] at found
  obtain ⟨s, member, ⟨⟨range, selection⟩, missing⟩, last⟩ := found
  have parsed : CommandLine.parse ["symbols", "tree.json"] =
      .ok ⟨false, .symbols "tree.json" none none false⟩ := rfl
  refine ⟨t, r, s, loaded, top, member, range, selection, missing, ?_⟩
  rw [CommandLine.run_symbols_eq_stopped_iff "/" ⟨[], none⟩ parsed there loaded top]
  exact symbols?_eq_none_iff.mpr ⟨s, member, last⟩

end Report

end FishNav
