import FishNav.Proofs.Scope
import FishNav.Proofs.Script.Endings
import FishNav.Proofs.Script.Scopes

/-!
# Functions around a range

The range of a function takes in the comments above it, and both of its ends count. Even so, two
functions neither of which is inside the other have no position in common (`functions_apart`):
the comments above a function never reach back over another one, and behind a function stands
something that starts neither a comment nor a function.

So the functions around a range are nested in each other, the outermost first (`around_nested`),
and the last one, in which names are looked up first, is the innermost (`functions_nested`).
-/
namespace FishNav.Script

open Node (Descends)

variable {source : String} {p f g : Node} {s t : Symbol}

/-! ### Nodes -/

/-- Where the range of a function starts, a comment or the function itself starts. -/
theorem exists_commented_start (inside : Descends (root source) p) (step : g ∈ p.children)
    (function : g.kind = .functionDefinition) :
    ∃ e, Descends (root source) e ∧ (e.kind = .comment ∨ e.kind = .functionDefinition) ∧
      g.commentedRange.start = e.start := by
  unfold Node.commentedRange
  split
  · exact ⟨g, inside.down step, Or.inr function, rfl⟩
  · next comment last =>
    have run := List.mem_of_getLast? last
    obtain ⟨i, place⟩ := List.mem_iff_getElem?.mp step
    obtain ⟨k, -, there, -⟩ := commentRun_place place run
    have kind : comment.kind = .comment := by
      simpa [Node.isComment] using List.all_eq_true.mp List.all_takeWhile comment run
    exact ⟨comment, inside.down (List.mem_of_getElem? there), Or.inl kind, rfl⟩

/-- A function stops before the range of a function in a later sibling starts. -/
theorem stop_lt_commented {c d : Node} {i j : Nat} (way : Descends (root source) p)
    (first : p.children[i]? = some c) (second : p.children[j]? = some d) (order : i < j)
    (belowC : Descends c f) (functionF : f.kind = .functionDefinition) (belowD : Descends d g)
    (functionG : g.kind = .functionDefinition) : f.stop < g.commentedRange.start := by
  have insideC := way.down (List.mem_of_getElem? first)
  have insideD := way.down (List.mem_of_getElem? second)
  have other : c.kind ≠ .comment := by
    intro kind
    obtain rfl := eq_of_leaf insideC (by rw [kind]; rfl) belowC
    simp [functionF] at kind
  have before : f.stop ≤ g.commentedRange.start :=
    le_trans (within_of_descends insideC belowC).2
      (stop_le_commented way first second order other belowD functionG)
  -- the two places are not the same, since the text does not go on with a letter behind `f`
  obtain ⟨q, above, step⟩ : ∃ q, Descends (root source) q ∧ g ∈ q.children := by
    cases belowD with
    | here => exact ⟨p, way, List.mem_of_getElem? second⟩
    | down above step => exact ⟨_, insideD.trans above, step⟩
  obtain ⟨e, insideE, statement, start⟩ := exists_commented_start above step functionG
  have apart := stop_ne_start (insideC.trans belowC) functionF insideE statement
  rw [start] at before ⊢
  exact lt_of_le_of_ne before apart

/-- Two functions are one inside the other, or one ends before the other and its comments start. -/
theorem functions_apart (left : Descends (root source) f) (functionF : f.kind = .functionDefinition)
    (right : Descends (root source) g) (functionG : g.kind = .functionDefinition) :
    Descends f g ∨ Descends g f ∨ f.stop < g.commentedRange.start ∨
      g.stop < f.commentedRange.start := by
  rcases left.compare right with below | above | ⟨p, way, c, d, i, j, slots, hc, hd, hf, hg⟩
  · exact Or.inl below
  · exact Or.inr (Or.inl above)
  · rcases Nat.lt_or_gt_of_ne slots with order | order
    · exact Or.inr (Or.inr (Or.inl (stop_lt_commented way hc hd order hf functionF hg functionG)))
    · exact Or.inr (Or.inr (Or.inr (stop_lt_commented way hd hc order hg functionG hf functionF)))

/-! ### Symbols -/

/-- A function of the outline comes from a node. -/
theorem exists_functionNode (member : s ∈ Symbol.flatten (root source).symbols)
    (function : s.isFunction = true) :
    ∃ f name, Descends (root source) f ∧ f.kind = .functionDefinition ∧ f.symbol? = some s ∧
      f.IsFunctionSymbol name s := by
  obtain ⟨f, inside, own⟩ := Node.exists_of_mem_flatten member
  rcases Node.symbol?_cases own with ⟨kind, name, symbol⟩ | ⟨-, -, rfl⟩
  · exact ⟨f, name, inside, kind, own, symbol⟩
  · cases function

/-- What is inside a function is below its symbol. -/
theorem mem_flatten_children {name : Node} (inside : Descends (root source) f)
    (symbol : f.IsFunctionSymbol name s) (way : Descends f g) (other : f ≠ g)
    (own : g.symbol? = some t) : t ∈ Symbol.flatten s.children := by
  rcases way.cases_child with rfl | ⟨c, step, rest⟩
  · exact absurd rfl other
  · rw [symbol.children, Node.inner_eq, Symbol.flatten_flatMap]
    exact List.mem_flatMap_of_mem step (mem_flatten_of_descends (inside.down step) rest own)

/-- Two functions of the outline are the same, or one is below the other, or their ranges are
apart. -/
theorem functionSymbols_cases (left : s ∈ Symbol.flatten (root source).symbols)
    (functionS : s.isFunction = true) (right : t ∈ Symbol.flatten (root source).symbols)
    (functionT : t.isFunction = true) :
    s = t ∨ t ∈ Symbol.flatten s.children ∧ s.selection.start < t.selection.start ∨
      s ∈ Symbol.flatten t.children ∧ t.selection.start < s.selection.start ∨
      s.range.stop < t.range.start ∨ t.range.stop < s.range.start := by
  obtain ⟨f, name, insideF, kindF, ownF, symbolF⟩ := exists_functionNode left functionS
  obtain ⟨g, name', insideG, kindG, ownG, symbolG⟩ := exists_functionNode right functionT
  by_cases same : f = g
  · subst same
    exact Or.inl (Option.some.inj (ownF.symm.trans ownG))
  · have stop : ∀ n : Node, n.commentedRange.stop = n.stop := by
      intro n
      unfold Node.commentedRange
      split <;> rfl
    rw [symbolF.range, symbolG.range, stop, stop]
    rcases functions_apart insideF kindF insideG kindG with down | up | apart
    · exact Or.inr (Or.inl ⟨mem_flatten_children insideF symbolF down same ownG,
        descends_ordered insideF down ownF ownG same⟩)
    · exact Or.inr (Or.inr (Or.inl ⟨mem_flatten_children insideG symbolG up (Ne.symm same) ownF,
        descends_ordered insideG up ownG ownF (Ne.symm same)⟩))
    · exact Or.inr (Or.inr (Or.inr apart))

/-- Of two functions of the outline the later one is below the earlier one, or they have no position
in common. -/
theorem functionSymbols_apart :
    (Symbol.flatten (root source).symbols).Pairwise fun s t =>
      s.isFunction = true → t.isFunction = true → t ∈ Symbol.flatten s.children ∨
        ∀ p, ¬ (s.range.covers p = true ∧ t.range.covers p = true) := by
  apply (flatten_ordered .here).imp_of_mem
  intro s t left right order functionS functionT
  simp only [Range.covers, Bool.and_eq_true, decide_eq_true_eq]
  rcases functionSymbols_cases left functionS right functionT with
    rfl | inner | outer | before | after
  · exact absurd order (lt_irrefl _)
  · exact Or.inl inner.1
  · exact absurd outer.2 (lt_asymm order)
  · exact Or.inr fun p both => absurd (le_trans both.2.1 both.1.2) (not_le_of_gt before)
  · exact Or.inr fun p both => absurd (le_trans both.1.1 both.2.2) (not_le_of_gt after)

/-- The functions around a range are nested, the outermost first. -/
theorem around_nested {range : Range} (forward : range.start ≤ range.stop) :
    (Scope.around (root source).symbols range).Pairwise fun outer inner =>
      inner ∈ Symbol.flatten outer.children := by
  have covers : ∀ s ∈ Scope.around (root source).symbols range,
      s.range.covers range.start = true := by
    intro s member
    have contains := (Scope.mem_around_iff.mp member).2.2
    rw [Range.contains_iff forward] at contains
    simp only [Range.covers, Bool.and_eq_true, decide_eq_true_eq]
    exact ⟨contains.1, le_trans forward contains.2⟩
  apply (functionSymbols_apart.filter _).imp_of_mem
  intro s t left right apart
  rcases apart (Scope.mem_around_iff.mp left).2.1 (Scope.mem_around_iff.mp right).2.1 with
    inner | disjoint
  · exact inner
  · exact absurd ⟨covers s left, covers t right⟩ (disjoint range.start)

/-- Of two functions of the outline one is below the other, or they have no position in common. So
the functions around a range are nested, the outermost first, and the last of them, whose symbols
are the local ones at the range, is the innermost. -/
theorem functions_nested (source : String) (r : Node) (top : (tree source).root? = some r)
    (range : Range) (forward : range.start ≤ range.stop) :
    ((Symbol.flatten r.symbols).Pairwise fun s t =>
        s.isFunction = true → t.isFunction = true → t ∈ Symbol.flatten s.children ∨
          ∀ p, ¬ (s.range.covers p = true ∧ t.range.covers p = true)) ∧
      ((Scope.around r.symbols range).Pairwise fun outer inner =>
        inner ∈ Symbol.flatten outer.children) ∧
      ∀ innermost, (Scope.around r.symbols range).getLast? = some innermost →
        (∀ f ∈ Scope.around r.symbols range,
          f = innermost ∨ innermost ∈ Symbol.flatten f.children) ∧
        Scope.nearby r range =
          (Scope.mostRecent (Symbol.flatten innermost.children) range).map Symbol.leaf ++
            (Scope.added r.symbols
              (Scope.mostRecent (Symbol.flatten innermost.children) range)).map Symbol.leaf := by
  obtain rfl := Option.some.inj ((root?_tree source).symm.trans top)
  have nested := @around_nested source range forward
  refine ⟨functionSymbols_apart, nested, ?_⟩
  intro innermost last
  constructor
  · intro f around
    obtain ⟨front, split⟩ := List.getLast?_eq_some_iff.mp last
    rw [split, List.pairwise_append] at nested
    rw [split, List.mem_append, List.mem_singleton] at around
    exact around.symm.imp_right fun early => nested.2.2 f early innermost List.mem_cons_self
  · rw [Scope.nearby_eq, Scope.locals, last]

/-- The comment behind `g` belongs to `h`, and `g` is not around it. -/
theorem functions_nested_comment :
    ∃ r s, (tree "function f\n  function g; end # x\n  function h; end\nend\n").root? = some r ∧
      (Scope.around r.symbols ⟨⟨1, 18⟩, ⟨1, 21⟩⟩).getLast? = some s ∧ s.name = "h" ∧
      (Scope.around r.symbols ⟨⟨1, 18⟩, ⟨1, 21⟩⟩).map Symbol.name = ["f", "h"] ∧
      ∀ f ∈ Scope.around r.symbols ⟨⟨1, 18⟩, ⟨1, 21⟩⟩,
        f = s ∨ s ∈ Symbol.flatten f.children := by
  have names : (Scope.around
      (root "function f\n  function g; end # x\n  function h; end\nend\n").symbols
      ⟨⟨1, 18⟩, ⟨1, 21⟩⟩).map Symbol.name = ["f", "h"] := by decide +kernel
  have last := List.getLast?_map.symm.trans (congrArg List.getLast? names)
  obtain ⟨s, last, name⟩ := Option.map_eq_some_iff.mp last
  exact ⟨_, s, root?_tree _, last, name, names,
    ((functions_nested _ _ (root?_tree _) _ (by decide)).2.2 s last).1⟩

end FishNav.Script
