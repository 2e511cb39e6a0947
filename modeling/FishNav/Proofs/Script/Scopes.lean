import FishNav.Proofs.Script.Outline

/-!
# Scopes of a script

A name lives in the nearest function or program above it, and that is where its symbol stands in
the outline: directly inside it (`findAbove?_of_exposed`). A function's range, widened by the
comments above it, takes in a node just when the node is in the function (`contains_site_iff`).
-/
namespace FishNav

/-- For a range that runs forward, to be contained is to lie between the ends. -/
theorem Range.contains_iff {outer inner : Range} (forward : inner.start ≤ inner.stop) :
    outer.contains inner = true ↔ outer.start ≤ inner.start ∧ inner.stop ≤ outer.stop := by
  refine ⟨fun within => ?_, fun ⟨start, stop⟩ => contains_of_le start forward stop⟩
  simp only [contains, Bool.and_eq_true, Bool.not_eq_true', Bool.and_eq_false_iff,
    decide_eq_true_eq, decide_eq_false_iff_not, beq_eq_false_iff_ne] at within
  rw [Position.le_def, Position.le_def]
  omega

namespace Script

open Cst
open Node (Descends Exposed)

variable {source : String} {n m p : Node} {s : Symbol}

/-! ### Where names live -/

theorem named_of_child (inside : Descends (root source) p) (step : m ∈ p.children) :
    p.isNamed = true := by
  have kind := child_kind inside step
  rw [Node.isNamed, Kind.isNamed, bne_iff_ne]
  rintro token
  simp [token, childKinds] at kind

theorem bounds_iff : n.bounds = true ↔ n.kind = .functionDefinition ∨ n.kind = .program := by
  simp [Node.bounds, Node.isFunctionDefinition, Node.isProgram]

/-- A function with a named node in it has a symbol. -/
theorem exists_functionSymbol (function : n.kind = .functionDefinition) (step : m ∈ n.children)
    (named : m.isNamed = true) :
    ∃ name s, n.symbol? = some s ∧ n.IsFunctionSymbol name s := by
  obtain ⟨name, first⟩ := Option.isSome_iff_exists.mp
    (List.find?_isSome.mpr ⟨m, step, named⟩ : n.firstNamedChild?.isSome = true)
  obtain ⟨s, own, symbol⟩ := Node.symbol?_of_function function first
  exact ⟨name, s, own, symbol⟩

/-- The nearest function or program above a named node is the one in which it is exposed. -/
theorem findAbove?_of_exposed {scope : Node} (inside : Descends (root source) scope)
    (bounds : scope.bounds = true) (exposed : Exposed scope m) (named : m.isNamed = true) :
    m.findAbove? Node.bounds = some scope := by
  induction exposed with
  | child step => rw [Node.findAbove?, Node.ancestors_of_mem_children step, List.find?_cons, bounds]
  | @down q m way none step ih =>
    obtain ⟨q', above, step'⟩ := way.exists_parent
    have insideQ := (inside.trans above).down step'
    have other : q.bounds = false := by
      refine Bool.eq_false_iff.mpr fun bounds => ?_
      rcases bounds_iff.mp bounds with function | program
      · obtain ⟨name, s, own, -⟩ := exists_functionSymbol function step named
        rw [none] at own
        cases own
      · exact child_ne_program (inside.trans above) step' program
    rw [Node.findAbove?, Node.ancestors_of_mem_children step, List.find?_cons, other]
    exact ih (named_of_child insideQ step)

/-- Every node but the program lives in a function or in the program. -/
theorem exists_scope (inside : Descends (root source) m) (program : m.kind ≠ .program) :
    ∃ scope, m.findAbove? Node.bounds = some scope := by
  have top : root source ∈ m.ancestors := by
    rcases inside.eq_or_mem_ancestors with rfl | above
    · exact absurd (stands_root source).1 program
    · exact above
  apply Option.isSome_iff_exists.mp
  exact List.find?_isSome.mpr ⟨_, top, bounds_root source⟩

/-- Between a node and the nearest function or program around it, no node has a symbol. -/
theorem exposed_of_findAbove? {scope : Node} (inside : Descends (root source) m)
    (found : m.findAbove? Node.bounds = some scope) : Exposed scope m := by
  induction inside with
  | here => simp [Node.findAbove?, root, Node.ancestors] at found
  | @down p m way step ih =>
    rw [Node.findAbove?, Node.ancestors_of_mem_children step, List.find?_cons] at found
    split at found
    · obtain rfl := Option.some.inj found
      exact .child step
    · next other =>
      refine .down (ih found) ?_ step
      cases own : p.symbol? with
      | none => rfl
      | some s =>
        rcases Node.symbol?_cases own with ⟨function, -⟩ | ⟨-, definition, -⟩
        · simp [bounds_iff.mpr (Or.inl function)] at other
        · simp [not_definition_of_child way step] at definition

/-- The scope of a variable that is brought in is where its symbol stands. -/
theorem definitionScope?_eq (inside : Descends (root source) m)
    (definition : m.isVariableDefinition = true) :
    m.definitionScope? = m.findAbove? Node.bounds := by
  have name : m.isFunctionName = false := by
    refine Bool.eq_false_iff.mpr fun name => ?_
    cases inside with
    | here => simp [Node.isFunctionName, Node.isNameOf, root, Node.parent?] at name
    | @down p m way step =>
      simp only [Node.isFunctionName, Node.isNameOf, Node.parent?_of_mem_children step,
        Bool.and_eq_true, beq_iff_eq, Option.any_eq_true] at name
      obtain ⟨function, first, found, same⟩ := name
      obtain ⟨-, k, place, -⟩ := firstNamed_place found
      obtain rfl : first = m :=
        (same_iff (way.down (List.mem_of_getElem? place)) (way.down step)).mp same
      simp [name_not_definition way (by simp [function]) found] at definition
  rw [Node.definitionScope?, name, if_neg Bool.false_ne_true]

/-! ### Sites and references -/

/-- A node with a text ends behind its start. -/
theorem start_lt_stop (inside : Descends (root source) n) (some : n.text ≠ "") :
    n.start < n.stop := by
  obtain ⟨front, parts, stands⟩ := exists_stands inside
  rw [stands.start, stands.stop]
  refine position_lt_append front fun empty => some ?_
  rw [Node.text, stands.spelled, empty]

/-- A node with a text from which names can be looked up. -/
structure Site (source : String) (n : Node) : Prop where
  inside : Descends (root source) n
  text : n.text ≠ ""
  program : n.kind ≠ .program
  comment : n.kind ≠ .comment

theorem Site.start_lt_stop (site : Site source n) : n.start < n.stop :=
  Script.start_lt_stop site.inside site.text

/-- A name that is used in a statement, and not directly in a function or the program. -/
structure Use (source : String) (n : Node) : Prop extends Site source n where
  function : n.kind ≠ .functionDefinition
  statement : ∃ p, n.parent? = some p ∧ p.bounds = false

/-- `n` is the name in an expansion. -/
structure Reference (source : String) (n : Node) : Prop where
  inside : Descends (root source) n
  kind : n.kind = .variableName
  expansion : ∃ p, n.parent? = some p ∧ p.kind = .variableExpansion

namespace Reference

/-- The name in an expansion is not empty and stands behind the dollar sign. -/
theorem name (reference : Reference source n) :
    n.text ≠ "" ∧ ∀ p, n.parent? = some p → p.start < n.start := by
  obtain ⟨p, parent, kind⟩ := reference.expansion
  obtain ⟨way, step⟩ := reference.inside.of_parent? parent
  obtain ⟨front, cs, after, filled, -, -, stands, child⟩ :=
    stands_expansion way kind step reference.kind
  constructor
  · rw [Node.text, child.spelled]
    simpa using filled
  · intro p' parent'
    obtain rfl := Option.some.inj (parent.symm.trans parent')
    rw [stands.start, child.start]
    exact position_lt_append front (by simp)

theorem use (reference : Reference source n) : Use source n where
  inside := reference.inside
  text := reference.name.1
  program := by simp [reference.kind]
  comment := by simp [reference.kind]
  function := by simp [reference.kind]
  statement := by
    obtain ⟨p, parent, expansion⟩ := reference.expansion
    refine ⟨p, parent, Bool.eq_false_iff.mpr fun bounds => ?_⟩
    simp [bounds_iff, expansion] at bounds

end Reference

/-! ### Names of commands -/

/-- A piece of an argument has a text. -/
theorem Form.piece_ne_nil {kind : Kind} {parts : List Cst} (rule : Form kind parts)
    (piece : kind ∈ pieceKinds) : charsOfAll parts ≠ [] := by
  cases rule with
  | word some | integer some => simpa using some
  | singleQuoteString | variableExpansion | doubleQuoteString | commandSubstitution => simp
  | _ => simp [pieceKinds] at piece

theorem Form.argument_ne_nil {kind : Kind} {parts : List Cst} (rule : Form kind parts)
    (formed : ∀ p ∈ parts, p.Formed) (argument : kind ∈ argumentKinds) :
    charsOfAll parts ≠ [] := by
  rcases List.mem_cons.mp argument with rfl | piece
  · cases rule with
    | @concatenation pieces some kinds =>
      obtain ⟨p, more, rfl⟩ := List.exists_cons_of_ne_nil some
      obtain ⟨kind, member, inner, rfl⟩ := kinds p List.mem_cons_self
      have rule := (formed_node.mp (formed _ List.mem_cons_self)).1
      simp [rule.piece_ne_nil member]
  · exact rule.piece_ne_nil piece

structure Call (source : String) (n : Node) : Prop where
  inside : Descends (root source) n
  name : n.isCommandName = true

namespace Call

theorem exists_command (call : Call source n) :
    ∃ p, Descends (root source) p ∧ n ∈ p.children ∧ p.kind = .command ∧
      p.firstNamedChild? = some n := by
  have name := call.name
  cases call.inside with
  | here => simp [Node.isCommandName, Node.isNameOf, root, Node.parent?] at name
  | @down p _ way step =>
    simp only [Node.isCommandName, Node.isNameOf, Node.parent?_of_mem_children step,
      Bool.and_eq_true, beq_iff_eq, Option.any_eq_true] at name
    obtain ⟨command, first, found, same⟩ := name
    obtain ⟨-, k, place, -⟩ := firstNamed_place found
    obtain rfl : first = n :=
      (same_iff (way.down (List.mem_of_getElem? place)) (way.down step)).mp same
    exact ⟨p, way, step, command, found⟩

theorem kind (call : Call source n) : n.kind ∈ argumentKinds := by
  obtain ⟨p, way, step, command, -⟩ := call.exists_command
  have kind := child_kind way step
  rwa [command] at kind

theorem not_definition (call : Call source n) : n.isVariableDefinition = false := by
  obtain ⟨p, way, -, command, first⟩ := call.exists_command
  exact name_not_definition way (by simp [command]) first

theorem kind_ne (call : Call source n) {kind : Kind} (other : kind ∉ argumentKinds) :
    n.kind ≠ kind := by
  intro same
  exact other (same ▸ call.kind)

theorem site (call : Call source n) : Site source n where
  inside := call.inside
  text := by
    obtain ⟨front, parts, stands⟩ := exists_stands call.inside
    rw [Node.text, stands.spelled]
    simpa using stands.rule.argument_ne_nil stands.formed call.kind
  program := call.kind_ne (by decide)
  comment := call.kind_ne (by decide)

theorem use (call : Call source n) : Use source n where
  toSite := call.site
  function := call.kind_ne (by decide)
  statement := by
    obtain ⟨p, way, step, command, -⟩ := call.exists_command
    refine ⟨p, Node.parent?_of_mem_children step, Bool.eq_false_iff.mpr fun bounds => ?_⟩
    simp [bounds_iff, command] at bounds

end Call

/-! ### Comments above a function -/

theorem exists_split_of_mem_takeWhile {α : Type} {p q : α → Bool} {x : α} {xs : List α}
    (member : x ∈ (xs.filter p).takeWhile q) :
    ∃ before after, xs = before ++ x :: after ∧ ∀ y ∈ x :: before, p y = true → q y = true := by
  induction xs with
  | nil => simp at member
  | cons y ys ih =>
    rw [List.filter_cons] at member
    by_cases keep : p y = true
    · rw [if_pos keep, List.takeWhile_cons] at member
      by_cases take : q y = true
      · rw [if_pos take, List.mem_cons] at member
        rcases member with rfl | member
        · exact ⟨[], ys, rfl, by simp [take]⟩
        · obtain ⟨before, after, rfl, all⟩ := ih member
          exact ⟨y :: before, after, rfl, by grind⟩
      · rw [if_neg take] at member
        cases member
    · rw [if_neg keep] at member
      obtain ⟨before, after, rfl, all⟩ := ih member
      exact ⟨y :: before, after, rfl, by grind⟩

/-- Between a comment above a node and the node stand only comments and tokens. -/
theorem commentRun_place {f comment : Node} {i : Nat} (place : p.children[i]? = some f)
    (member : comment ∈ f.commentRun) :
    ∃ k, k < i ∧ p.children[k]? = some comment ∧
      ∀ j d, k ≤ j → j < i → p.children[j]? = some d → d.kind = .comment ∨ d.kind = .anonymous := by
  have place' := place
  rw [Node.getElem?_children, Option.map_eq_some_iff] at place'
  obtain ⟨t, -, rfl⟩ := place'
  obtain ⟨before, after, split, all⟩ := exists_split_of_mem_takeWhile member
  have front : p.children.take i = after.reverse ++ comment :: before.reverse := by
    simpa [Node.before] using congrArg List.reverse split
  have length := congrArg List.length front
  simp only [List.length_take, List.length_append, List.length_reverse, List.length_cons] at length
  refine ⟨after.length, by omega, ?_, fun j d low high found => ?_⟩
  · rw [← List.getElem?_take_of_lt (by omega : after.length < i), front]
    simp
  · rw [← List.getElem?_take_of_lt high, front,
      List.getElem?_append_right (by simpa using low)] at found
    have later : d ∈ comment :: before := by simpa using List.mem_of_getElem? found
    by_cases named : d.isNamed = true
    · exact Or.inl (by simpa [Node.isComment] using all d later named)
    · exact Or.inr (by simpa [Node.isNamed, Kind.isNamed] using named)

/-- No keyword stands between a comment and a function behind it. -/
theorem not_token_between {f comment d : Node} {i j k : Nat} (inside : Descends (root source) p)
    (first : p.children[k]? = some comment) (between : p.children[j]? = some d)
    (last : p.children[i]? = some f) (before : k < j) (after : j < i)
    (kind : comment.kind = .comment) (function : f.kind = .functionDefinition) :
    d.kind ≠ .anonymous := by
  intro token
  obtain ⟨front, parts, stands⟩ := exists_stands inside
  obtain ⟨front₁, inner₁, back₁, split₁, count₁, -⟩ :=
    stands.child (Node.getElem?_self_children first)
  obtain ⟨front₂, inner₂, back₂, split₂, count₂, -⟩ :=
    stands.child (Node.getElem?_self_children between)
  obtain ⟨front₃, inner₃, back₃, split₃, count₃, -⟩ :=
    stands.child (Node.getElem?_self_children last)
  obtain ⟨more, rfl, -⟩ := exists_between (split₁.symm.trans split₂) (by omega)
  obtain ⟨more', -, rfl⟩ := exists_between (split₂.symm.trans split₃) (by omega)
  rw [show comment.self.kind = .comment from kind, show d.self.kind = .anonymous from token,
    show f.self.kind = .functionDefinition from function] at split₂
  have rule := stands.rule
  rw [split₂] at rule
  exact rule.not_comment_before (List.mem_append_right _ List.mem_cons_self) inner₁ (by simp)

/-- A function and the comments above it stand behind the start of every node around them but the
program. -/
theorem start_lt_commented {f q : Node} (inside : Descends (root source) n)
    (program : n.kind ≠ .program) (way : Descends n q) (step : f ∈ q.children)
    (function : f.kind = .functionDefinition) : n.start < f.commentedRange.start := by
  have insideQ := inside.trans way
  have other : q.kind ≠ .program := by
    intro kind
    have top := eq_root_of_program insideQ kind
    rcases way.eq_or_mem_ancestors with rfl | above
    · exact program kind
    · simp [top, root, Node.ancestors] at above
  have around := (within_of_descends inside way).1
  obtain ⟨i, place⟩ := List.mem_iff_getElem?.mp step
  unfold Node.commentedRange
  split
  · exact lt_of_le_of_lt around (opening_lt_statement insideQ other step (Or.inr function))
  · next comment last =>
    have run := List.mem_of_getLast? last
    obtain ⟨k, -, place', -⟩ := commentRun_place place run
    have kind : comment.kind = .comment := by
      simpa [Node.isComment] using List.all_eq_true.mp List.all_takeWhile comment run
    exact lt_of_le_of_lt around
      (opening_lt_statement insideQ other (List.mem_of_getElem? place') (Or.inl kind))

/-- A function's range, with the comments above it, does not reach back over a node before it, if
that is no comment itself. -/
theorem stop_le_commented {f c d : Node} {i j : Nat} (way : Descends (root source) p)
    (first : p.children[j]? = some d) (second : p.children[i]? = some c) (order : j < i)
    (other : d.kind ≠ .comment) (belowC : Descends c f)
    (function : f.kind = .functionDefinition) : d.stop ≤ f.commentedRange.start := by
  have between := siblings_le way first second order
  cases belowC with
  | here =>
    unfold Node.commentedRange
    split
    · exact between
    · next comment last =>
      have run := List.mem_of_getLast? last
      obtain ⟨k, -, place, tokens⟩ := commentRun_place second run
      rcases Nat.lt_or_ge j k with before | after
      · exact siblings_le way first place before
      · -- `d` would be one of the comments
        have comments : comment.kind = .comment := by
          simpa [Node.isComment] using List.all_eq_true.mp List.all_takeWhile comment run
        refine absurd ?_ other
        rcases Nat.eq_or_lt_of_le after with rfl | after
        · rw [place, Option.some.injEq] at first
          exact first ▸ comments
        · exact (tokens j d (Nat.le_of_lt after) order first).resolve_right
            (not_token_between way place first second after order comments function)
  | @down q' _ above step' =>
    have insideC := way.down (List.mem_of_getElem? second)
    exact le_trans between (commented_within insideC above step').1

/-- So it does not reach back to a site before it. -/
theorem site_lt_commented {f c d : Node} {i j : Nat} (site : Site source n)
    (way : Descends (root source) p) (first : p.children[j]? = some d)
    (second : p.children[i]? = some c) (order : j < i) (belowD : Descends d n)
    (belowC : Descends c f) (function : f.kind = .functionDefinition) :
    n.start < f.commentedRange.start := by
  have insideD := way.down (List.mem_of_getElem? first)
  have around := within_of_descends insideD belowD
  have other : d.kind ≠ .comment := by
    intro kind
    obtain rfl := eq_of_leaf insideD (by rw [kind]; rfl) belowD
    exact site.comment kind
  have before := stop_le_commented way first second order other belowC function
  exact lt_of_lt_of_le site.start_lt_stop (le_trans around.2 before)

/-- The range of a function, with the comments above it, takes in a site just when the site is in
the function. -/
theorem contains_site_iff {f q : Node} (site : Site source n)
    (inside : Descends (root source) q) (step : f ∈ q.children)
    (function : f.kind = .functionDefinition) :
    f.commentedRange.contains n.range = true ↔ Descends f n := by
  obtain ⟨-, widened, stop, -⟩ := commented_within inside .here step
  have insideF := inside.down step
  have strict := site.start_lt_stop
  rw [Range.contains_iff (le_of_lt strict)]
  constructor
  · rintro ⟨low, high⟩
    rcases insideF.compare site.inside with below | above |
        ⟨p, way, c, d, i, j, other, hc, hd, belowC, belowD⟩
    · exact below
    · cases above with
      | here => exact .here
      | @down q' _ way step' =>
        exact absurd low (not_le_of_gt
          (start_lt_commented site.inside site.program way step' function))
    · exfalso
      rcases Nat.lt_or_gt_of_ne other with order | order
      · have left := within_of_descends (way.down (List.mem_of_getElem? hc)) belowC
        have right := within_of_descends (way.down (List.mem_of_getElem? hd)) belowD
        have before := le_trans left.2 (le_trans (siblings_le way hc hd order) right.1)
        exact absurd (le_trans high (stop ▸ before)) (not_le_of_gt strict)
      · have before := site_lt_commented site way hd hc order belowD belowC function
        exact absurd low (not_le_of_gt before)
  · intro below
    have within := within_of_descends insideF below
    exact ⟨le_trans widened within.1, stop ▸ within.2⟩

end Script

end FishNav
