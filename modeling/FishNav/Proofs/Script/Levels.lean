import FishNav.Proofs.Script.Scopes
import FishNav.Scope
import Mathlib.Logic.Function.Iterate

/-!
# Levels seen from a node

The symbols that can be seen from a node are gathered level by level, one for each node above it.
Going from a level into the function whose range takes in the node is going to the next function
around the node (`inner_of_exposed`), and there is nothing to go into behind the last one. So what
is gathered is the outline and the insides of the functions around the node, as many of them as
there are nodes above it (`visible_eq`). For a name that is used in a statement these are all
(`levels_lt`).
-/
namespace FishNav

theorem Symbol.sublist_flatten (ss : List Symbol) : ss.Sublist (flatten ss) := by
  fun_induction flatten ss with
  | case1 => exact List.Sublist.refl _
  | case2 s waiting ih => exact ((List.sublist_append_right _ _).trans ih).cons_cons s

namespace Node

/-- The functions around a node, itself among them, outermost first. -/
def functionsAround (n : Node) : List Node :=
  ((n :: n.ancestors).filter isFunctionDefinition).reverse

def members (n : Node) : List Symbol := (n.symbol?.map Symbol.children).getD []

theorem mem_functionsAround_iff {n f : Node} :
    f ∈ n.functionsAround ↔ (f = n ∨ f ∈ n.ancestors) ∧ f.kind = .functionDefinition := by
  simp [functionsAround, isFunctionDefinition]

theorem functionsAround_of_mem_children {p m : Node} (step : m ∈ p.children) :
    m.functionsAround =
      p.functionsAround ++ if m.isFunctionDefinition = true then [m] else [] := by
  rw [functionsAround, ancestors_of_mem_children step, List.filter_cons]
  split
  · rw [List.reverse_cons, functionsAround]
  · rw [List.append_nil, functionsAround]

/-- Of two nodes above a node one is above the other. -/
theorem Descends.total {a b n : Node} (left : Descends a n) (right : Descends b n) :
    Descends a b ∨ Descends b a := by
  induction left with
  | here => exact Or.inr right
  | @down p n way step ih =>
    cases right with
    | here => exact Or.inl (way.down step)
    | down way' step' =>
      have parent := parent?_of_mem_children step
      rw [parent?_of_mem_children step', Option.some.injEq] at parent
      exact ih (parent ▸ way')

theorem Exposed.mem_ancestors {p m : Node} (exposed : Exposed p m) : p ∈ m.ancestors := by
  obtain ⟨q, way, step⟩ := exposed.exists_parent
  rw [ancestors_of_mem_children step, List.mem_cons]
  exact way.eq_or_mem_ancestors

end Node

namespace Scope

/-- The outline, and then what is inside the functions around a node. -/
def levels (root n : Node) : List (List Symbol) :=
  root.symbols :: n.functionsAround.map Node.members

/-- A level for each node up to the program, as far as there are levels. -/
theorem levelsAlong_eq {target : Range} {between above : List Node} {top : Node}
    {level : List Symbol} {levels : List (List Symbol)}
    (others : ∀ a ∈ between, a.isProgram = false) (program : top.isProgram = true)
    (deep : ∀ i, (inner target)^[i] level = levels[i]?.getD []) :
    levelsAlong target (between ++ top :: above) level =
      (levels.take between.length).flatten.map Symbol.leaf := by
  induction between generalizing level levels with
  | nil => simp [levelsAlong, program]
  | cons a between ih =>
    rw [List.forall_mem_cons] at others
    have below : ∀ i, (inner target)^[i] (inner target level) = levels.tail[i]?.getD [] := by
      intro i
      rw [← Function.iterate_succ_apply, deep, List.getElem?_tail]
    have here : level = levels[0]?.getD [] := deep 0
    rw [List.cons_append, levelsAlong, others.1, if_neg Bool.false_ne_true, ih others.2 below, here]
    cases levels <;> simp

/-- Where one symbol of a level takes in the target, the next level is what is inside of it. -/
theorem inner_eq_children {target : Range} {level : List Symbol} {s : Symbol}
    (ordered : level.Pairwise (·.selection.start < ·.selection.start)) (member : s ∈ level)
    (only : ∀ t ∈ level, (t.isFunction && t.range.contains target) = true ↔ t = s) :
    inner target level = s.children := by
  obtain ⟨before, after, rfl⟩ := List.append_of_mem member
  obtain ⟨-, later, earlier⟩ := List.pairwise_append.mp ordered
  have front : before.filter (fun t => t.isFunction && t.range.contains target) = [] := by
    refine List.filter_eq_nil_iff.mpr fun t early takes => ?_
    have same := (only t (List.mem_append_left _ early)).mp takes
    exact absurd (same ▸ earlier t early s List.mem_cons_self) (lt_irrefl _)
  have back : after.filter (fun t => t.isFunction && t.range.contains target) = [] := by
    refine List.filter_eq_nil_iff.mpr fun t late takes => ?_
    have same := (only t (by simp [late])).mp takes
    exact absurd (same ▸ (List.pairwise_cons.mp later).1 t late) (lt_irrefl _)
  rw [inner, List.filter_append, List.filter_cons, if_pos ((only s member).mpr rfl), front, back]
  simp

end Scope

namespace Script

open Node (Descends Exposed)

variable {source : String} {n m p f g scope : Node} {s : Symbol}

/-! ### Inside of functions -/

/-- A token has nothing named below it. -/
theorem named_of_descends (inside : Descends (root source) n) (way : Descends n m)
    (named : m.isNamed = true) : n.isNamed = true := by
  rcases way.cases_child with rfl | ⟨c, step, -⟩
  · exact named
  · exact named_of_child inside step

theorem named_of_symbol? (own : m.symbol? = some s) : m.isNamed = true := by
  rcases Node.symbol?_cases own with ⟨function, -⟩ | ⟨-, definition, -⟩
  · simp [Node.isNamed, function, Kind.isNamed]
  · exact (leaf_of_definition definition).2

/-- A function without a symbol has nothing inside. -/
theorem members_eq (inside : Descends (root source) f) (function : f.kind = .functionDefinition) :
    f.members = f.inner := by
  unfold Node.members
  cases own : f.symbol? with
  | some s =>
    rcases Node.symbol?_cases own with ⟨-, name, symbol⟩ | ⟨other, -⟩
    · exact symbol.children
    · exact absurd function other
  | none =>
    refine (List.eq_nil_iff_forall_not_mem.mpr fun s member => ?_).symm
    obtain ⟨m, exposed, own'⟩ := Node.mem_inner_iff.mp member
    rcases exposed.descends.cases_child with rfl | ⟨c, step, rest⟩
    · rw [own] at own'
      cases own'
    · have named := named_of_descends (inside.down step) rest (named_of_symbol? own')
      obtain ⟨name, t, own'', -⟩ := exists_functionSymbol function step named
      rw [own] at own''
      cases own''

/-- The symbols inside a function or the program are in the order of the text. -/
theorem inner_ordered (inside : Descends (root source) scope) (bounds : scope.bounds = true) :
    scope.inner.Pairwise (·.selection.start < ·.selection.start) := by
  have ordered := flatten_ordered inside
  cases own : scope.symbol? with
  | none =>
    rw [Node.symbols_of_none own] at ordered
    exact ordered.sublist (Symbol.sublist_flatten _)
  | some s =>
    rw [Node.symbols_of_symbol? own, Symbol.flatten_singleton] at ordered
    rcases Node.symbol?_cases own with ⟨-, name, symbol⟩ | ⟨other, definition, -⟩
    · rw [symbol.children] at ordered
      exact (List.pairwise_cons.mp ordered).2.sublist (Symbol.sublist_flatten _)
    · rcases bounds_iff.mp bounds with function | program
      · exact absurd function other
      · have leaf := (leaf_of_definition definition).1
        simp [program, childKinds, statementKinds] at leaf

/-! ### From a level to the next -/

/-- A symbol of a level takes in a site if it is that of a function around the site. -/
theorem takes_iff (site : Site source n) (inside : Descends (root source) scope)
    (exposed : Exposed scope g) (own : g.symbol? = some s) :
    (s.isFunction && s.range.contains n.range) = true ↔
      g.kind = .functionDefinition ∧ Descends g n := by
  rcases Node.symbol?_cases own with ⟨function, name, symbol⟩ | ⟨other, -, rfl⟩
  · obtain ⟨q, way, step⟩ := exposed.exists_parent
    rw [Symbol.isFunction, symbol.kind, symbol.range, Bool.and_eq_true,
      contains_site_iff site (inside.trans way) step function]
    simp [function]
  · have plain : (Symbol.ofVariable g).isFunction = false := rfl
    simp [other, plain]

/-- Around a node there is at most one function directly inside a function or the program. -/
theorem eq_of_exposed (inside : Descends (root source) scope) (bounds : scope.bounds = true)
    (left : Exposed scope f) (functionF : f.kind = .functionDefinition) (aroundF : Descends f n)
    (right : Exposed scope g) (functionG : g.kind = .functionDefinition) (aroundG : Descends g n) :
    f = g := by
  have nearest : ∀ {f g : Node}, Exposed scope f → f.kind = .functionDefinition →
      Exposed scope g → g.kind = .functionDefinition → Descends f g → f = g := by
    intro f g left functionF right functionG down
    rcases down.eq_or_mem_ancestors with same | above
    · exact same
    · have named : g.isNamed = true := by simp [Node.isNamed, functionG, Kind.isNamed]
      have found := findAbove?_of_exposed inside bounds right named
      have outer := Node.length_ancestors_lt left.mem_ancestors
      rcases Node.eq_or_above_of_findAbove? found above (bounds_iff.mpr (Or.inl functionF)) with
        rfl | higher
      · omega
      · have := Node.length_ancestors_lt higher
        omega
  rcases aroundF.total aroundG with down | up
  · exact nearest left functionF right functionG down
  · exact (nearest right functionG left functionF up).symm

/-- Without a function to go into there is no next level. -/
theorem inner_of_none (site : Site source n) (inside : Descends (root source) scope)
    (none : ∀ g s, Exposed scope g → g.symbol? = some s → g.kind = .functionDefinition →
      ¬ Descends g n) : Scope.inner n.range scope.inner = [] := by
  rw [Scope.inner, List.filter_eq_nil_iff.mpr fun s member takes => ?_, List.flatMap_nil]
  obtain ⟨g, exposed, own⟩ := Node.mem_inner_iff.mp member
  obtain ⟨function, around⟩ := (takes_iff site inside exposed own).mp takes
  exact none g s exposed own function around

/-- The next level is what is inside the next function around the site. -/
theorem inner_of_exposed (site : Site source n) (inside : Descends (root source) scope)
    (bounds : scope.bounds = true) (exposed : Exposed scope f)
    (function : f.kind = .functionDefinition) (around : Descends f n) :
    Scope.inner n.range scope.inner = f.members := by
  unfold Node.members
  cases own : f.symbol? with
  | none =>
    refine inner_of_none site inside fun g s exposed' own' function' around' => ?_
    rw [← eq_of_exposed inside bounds exposed function around exposed' function' around', own]
      at own'
    cases own'
  | some s =>
    refine Scope.inner_eq_children (inner_ordered inside bounds)
      (Node.mem_inner_iff.mpr ⟨f, exposed, own⟩) fun t member => ?_
    obtain ⟨g, exposed', own'⟩ := Node.mem_inner_iff.mp member
    rw [takes_iff site inside exposed' own']
    constructor
    · rintro ⟨function', around'⟩
      obtain rfl := eq_of_exposed inside bounds exposed function around exposed' function' around'
      exact Option.some.inj (own'.symm.trans own)
    · rintro rfl
      obtain rfl := eq_of_selection_start (inside.trans exposed.descends)
        (inside.trans exposed'.descends) own own' rfl
      exact ⟨function, around⟩

/-! ### All levels -/

/-- Going down from the program to a node above a site, the levels are those of the functions that
are passed; the last one is what is inside the nearest function or the program. -/
theorem iterate_inner (site : Site source n) {a : Node} (way : Descends (root source) a)
    (around : Descends a n) :
    ∃ scope, (a :: a.ancestors).find? Node.bounds = some scope ∧ Descends (root source) scope ∧
      (Scope.inner n.range)^[a.functionsAround.length] (root source).symbols = scope.inner ∧
      ∀ i level, (Scope.levels (root source) a)[i]? = some level →
        (Scope.inner n.range)^[i] (root source).symbols = level := by
  induction way with
  | here =>
    have none : (root source).functionsAround = [] := by
      rw [Node.functionsAround, show (root source).ancestors = [] from rfl]
      simp [Node.isFunctionDefinition, (stands_root source).1]
    refine ⟨root source, by rw [List.find?_cons, bounds_root], .here, ?_, fun i level found => ?_⟩
    · rw [none]
      exact Node.symbols_of_none (symbol?_root source)
    · rw [Scope.levels, none] at found
      cases i with
      | zero => exact Option.some.inj found
      | succ i => simp at found
  | @down p a way step ih =>
    obtain ⟨scope, found, inside, last, levels⟩ := ih ((Descends.child step).trans around)
    have above : a.findAbove? Node.bounds = some scope := by
      rw [Node.findAbove?, Node.ancestors_of_mem_children step, found]
    by_cases function : a.kind = .functionDefinition
    · have next := inner_of_exposed site inside (List.find?_some found)
        (exposed_of_findAbove? (way.down step) above) function around
      have more : a.functionsAround = p.functionsAround ++ [a] := by
        rw [Node.functionsAround_of_mem_children step, Node.isFunctionDefinition, function]
        rfl
      refine ⟨a, by rw [List.find?_cons, bounds_iff.mpr (Or.inl function)], way.down step, ?_, ?_⟩
      · rw [more, List.length_append, List.length_singleton, Function.iterate_succ_apply', last,
          next, members_eq (way.down step) function]
      · intro i level place
        rw [Scope.levels, more, List.map_append, ← List.cons_append,
          List.getElem?_append] at place
        split at place
        · exact levels i level place
        · next high =>
          rw [List.length_cons, List.length_map] at high place
          obtain ⟨rfl, rfl⟩ : i = p.functionsAround.length + 1 ∧ a.members = level := by
            rw [List.map_singleton, List.getElem?_singleton] at place
            split at place
            · exact ⟨by omega, Option.some.inj place⟩
            · cases place
          rw [Function.iterate_succ_apply', last, next]
    · have same : a.functionsAround = p.functionsAround := by
        rw [Node.functionsAround_of_mem_children step]
        simp [Node.isFunctionDefinition, function]
      have other : a.bounds = false := by
        refine Bool.eq_false_iff.mpr fun bounds => ?_
        exact (bounds_iff.mp bounds).elim function (child_ne_program way step)
      refine ⟨scope, ?_, inside, same ▸ last, ?_⟩
      · rw [List.find?_cons, other]
        exact above
      · rw [Scope.levels, same]
        exact levels

/-- Behind the innermost function around a site there is no further level. -/
theorem iterate_inner_eq (site : Site source n) (i : Nat) :
    (Scope.inner n.range)^[i] (root source).symbols =
      (Scope.levels (root source) n)[i]?.getD [] := by
  obtain ⟨scope, found, inside, last, levels⟩ := iterate_inner site site.inside .here
  cases place : (Scope.levels (root source) n)[i]? with
  | some level => exact levels i level place
  | none =>
    rw [List.getElem?_eq_none_iff, Scope.levels, List.length_cons, List.length_map] at place
    obtain ⟨k, rfl⟩ := Nat.exists_eq_add_of_le' place
    have final : Scope.inner n.range scope.inner = [] := by
      refine inner_of_none site inside fun g s exposed _ function around => ?_
      have outer := Node.length_ancestors_lt exposed.mem_ancestors
      have bounds := bounds_iff.mpr (Or.inl function)
      -- the scope is the nearest one, so `g` is not below it
      by_cases own : n.bounds = true
      · rw [List.find?_cons, own, Option.some.injEq] at found
        have := (found ▸ around).length_le
        omega
      · rw [List.find?_cons, Bool.eq_false_iff.mpr own] at found
        rcases around.eq_or_mem_ancestors with rfl | above
        · exact own bounds
        · rcases Node.eq_or_above_of_findAbove? found above bounds with rfl | higher
          · omega
          · have := Node.length_ancestors_lt higher
            omega
    rw [Function.iterate_add_apply, Function.iterate_succ_apply', last, final]
    exact Function.iterate_fixed rfl k

/-- What is above a child goes up to the root, past nodes that are no programs. -/
theorem exists_ancestors_split (inside : Descends (root source) p) (step : m ∈ p.children) :
    ∃ between, m.ancestors = between ++ [root source] ∧ ∀ a ∈ between, a.isProgram = false := by
  rw [Node.ancestors_of_mem_children step]
  clear step
  induction inside with
  | here => exact ⟨[], rfl, by simp⟩
  | down way step ih =>
    obtain ⟨between, split, others⟩ := ih
    rw [Node.ancestors_of_mem_children step, split]
    refine ⟨_ :: between, rfl, ?_⟩
    simpa [Node.isProgram, child_ne_program way step] using others

/-- What can be seen from a node: of the levels around it as many as there are nodes above it, the
program apart. -/
theorem visible_eq (inside : Descends (root source) n) (text : n.text ≠ "")
    (comment : n.kind ≠ .comment) :
    Scope.visible (root source) n =
      ((Scope.levels (root source) n).take
        (n.ancestors.countP fun a => !a.isProgram)).flatten.map Symbol.leaf := by
  have site : n.kind ≠ .program → Site source n := fun program =>
    ⟨inside, text, program, comment⟩
  cases inside with
  | here => simp [Scope.visible, Scope.levelsAlong, root, Node.ancestors]
  | down way step =>
    obtain ⟨between, split, others⟩ := exists_ancestors_split way step
    have program : (root source).isProgram = true := by
      simp [Node.isProgram, (stands_root source).1]
    have count : n.ancestors.countP (fun a => !a.isProgram) = between.length := by
      rw [split, List.countP_append, List.countP_eq_length.mpr (by simpa using others)]
      simp [program]
    rw [Scope.visible, count, split]
    exact Scope.levelsAlong_eq others program (iterate_inner_eq (site (child_ne_program way step)))

/-- For a name that is used in a statement there are nodes enough for all levels. -/
theorem levels_lt (use : Use source n) :
    n.functionsAround.length < n.ancestors.countP fun a => !a.isProgram := by
  obtain ⟨p, parent, statement⟩ := use.statement
  obtain ⟨way, step⟩ := use.inside.of_parent? parent
  have functions : ∀ a ∈ p.ancestors, a.isFunctionDefinition = true → (!a.isProgram) = true := by
    intro a _ function
    simp only [Node.isFunctionDefinition, beq_iff_eq] at function
    simp [Node.isProgram, function]
  have fewer := List.countP_mono_left functions
  have here : n.isFunctionDefinition = false := by simp [Node.isFunctionDefinition, use.function]
  simp only [Node.bounds, Bool.or_eq_false_iff] at statement
  rw [Node.functionsAround, List.length_reverse, ← List.countP_eq_length_filter,
    Node.ancestors_of_mem_children step, List.countP_cons, List.countP_cons, List.countP_cons,
    here, statement.1, statement.2]
  simp only [Bool.false_eq_true, if_false, Bool.not_false, if_true]
  omega

/-- What can be seen from a use: the outline, and what is inside each function around it. -/
theorem visible_of_use (use : Use source n) :
    Scope.visible (root source) n = (Scope.levels (root source) n).flatten.map Symbol.leaf := by
  have enough := levels_lt use
  rw [visible_eq use.inside use.text use.comment, List.take_of_length_le]
  rw [Scope.levels, List.length_cons, List.length_map]
  omega

/-- What can be seen from where a name is used: the symbols inside the functions above it and
inside the program. -/
theorem mem_visible_iff (use : Use source n) :
    s ∈ Scope.visible (root source) n ↔
      ∃ scope ∈ n.ancestors, scope.bounds = true ∧ ∃ t ∈ scope.inner, t.leaf = s := by
  obtain ⟨p, parent, -⟩ := use.statement
  obtain ⟨way, step⟩ := use.inside.of_parent? parent
  obtain ⟨between, split, -⟩ := exists_ancestors_split way step
  have top : root source ∈ n.ancestors := by simp [split]
  rw [visible_of_use use, Scope.levels, List.flatten_cons, List.mem_map]
  constructor
  · rintro ⟨t, member, leaf⟩
    rcases List.mem_append.mp member with outermost | deeper
    · rw [Node.symbols_of_none (symbol?_root source)] at outermost
      exact ⟨root source, top, bounds_root source, t, outermost, leaf⟩
    · simp only [List.mem_flatten, List.mem_map] at deeper
      obtain ⟨level, ⟨f, around, rfl⟩, member⟩ := deeper
      obtain ⟨above, function⟩ := Node.mem_functionsAround_iff.mp around
      have above := above.resolve_left fun same => use.function (same ▸ function)
      rw [members_eq (use.inside.of_mem_ancestors above).1 function] at member
      exact ⟨f, above, bounds_iff.mpr (Or.inl function), t, member, leaf⟩
  · rintro ⟨scope, above, bounds, t, member, leaf⟩
    have inside := (use.inside.of_mem_ancestors above).1
    refine ⟨t, List.mem_append.mpr ?_, leaf⟩
    rcases bounds_iff.mp bounds with function | program
    · rw [← members_eq inside function] at member
      exact Or.inr (List.mem_flatten_of_mem (List.mem_map_of_mem
        (Node.mem_functionsAround_iff.mpr ⟨Or.inr above, function⟩)) member)
    · rw [eq_root_of_program inside program] at member
      exact Or.inl (Node.symbols_of_none (symbol?_root source) ▸ member)

/-- What can be seen from a node. The levels are in the order of the text, and the symbols that they
are the insides of are those of the outline. From the name of a command and from the name in an
expansion all of them are seen. -/
theorem visible_levels (source : String) (r n : Node) (top : (tree source).root? = some r)
    (member : n ∈ (tree source).nodes) :
    (n.text ≠ "" → n.kind ≠ .comment →
      Scope.visible r n =
        ((Scope.levels r n).take
          (n.ancestors.countP fun a => !a.isProgram)).flatten.map Symbol.leaf) ∧
      (∀ level ∈ Scope.levels r n, level.Pairwise (·.selection.start < ·.selection.start)) ∧
      (∀ f ∈ n.functionsAround, ∀ s, f.symbol? = some s → s ∈ Symbol.flatten r.symbols) ∧
      (n.isCommandName = true ∨
          n.kind = .variableName ∧ (∃ p, n.parent? = some p ∧ p.kind = .variableExpansion) →
        (n.functionsAround.length < n.ancestors.countP fun a => !a.isProgram) ∧
          Scope.visible r n = (Scope.levels r n).flatten.map Symbol.leaf) := by
  obtain rfl := Option.some.inj ((root?_tree source).symm.trans top)
  have inside := mem_nodes_iff.mp member
  have around : ∀ f ∈ n.functionsAround, Descends (root source) f := by
    intro f passed
    rcases (Node.mem_functionsAround_iff.mp passed).1 with rfl | above
    · exact inside
    · exact (inside.of_mem_ancestors above).1
  refine ⟨visible_eq inside, fun level here => ?_, fun f passed s own => ?_, fun name => ?_⟩
  · rcases List.mem_cons.mp here with rfl | deeper
    · rw [Node.symbols_of_none (symbol?_root source)]
      exact inner_ordered .here (bounds_root source)
    · obtain ⟨f, passed, rfl⟩ := List.mem_map.mp deeper
      have function := (Node.mem_functionsAround_iff.mp passed).2
      rw [members_eq (around f passed) function]
      exact inner_ordered (around f passed) (bounds_iff.mpr (Or.inl function))
  · exact mem_flatten_of_descends .here (around f passed) own
  · have use : Use source n := by
      rcases name with command | ⟨kind, expansion⟩
      · exact Call.use ⟨inside, command⟩
      · exact Reference.use ⟨inside, kind, expansion⟩
    exact ⟨levels_lt use, visible_of_use use⟩

/-- A function with a comment above it, inside another one. From its keyword two of the three levels
are seen, from the reference in it all of them. -/
theorem visible_levels_nested :
    ∃ r n m, (tree "function f\n  set a 1\n  # g\n  function g; echo $a; end\nend").root? = some r ∧
      n ∈ (tree "function f\n  set a 1\n  # g\n  function g; echo $a; end\nend").nodes ∧
      m ∈ (tree "function f\n  set a 1\n  # g\n  function g; echo $a; end\nend").nodes ∧
      n.kind = .anonymous ∧ n.text = "function" ∧ n.functionsAround.length = 2 ∧
      Scope.visible r n = ((Scope.levels r n).take 2).flatten.map Symbol.leaf ∧
      m.kind = .variableName ∧ (∃ p, m.parent? = some p ∧ p.kind = .variableExpansion) ∧
      Scope.visible r m = (Scope.levels r m).flatten.map Symbol.leaf := by
  have keyword : ((tree "function f\n  set a 1\n  # g\n  function g; echo $a; end\nend").nodes.any
      fun n => n.kind == .anonymous && n.text == "function" && n.functionsAround.length == 2 &&
        (n.ancestors.countP fun a => !a.isProgram) == 2) = true := by decide +kernel
  have reference :
      ((tree "function f\n  set a 1\n  # g\n  function g; echo $a; end\nend").nodes.any fun n =>
        n.kind == .variableName && n.parent?.any (·.kind == .variableExpansion)) = true := by
    decide +kernel
  obtain ⟨n, first, shape⟩ := List.any_eq_true.mp keyword
  obtain ⟨m, second, name⟩ := List.any_eq_true.mp reference
  simp only [Bool.and_eq_true, beq_iff_eq] at shape
  obtain ⟨⟨⟨kind, text⟩, functions⟩, above⟩ := shape
  simp only [Bool.and_eq_true, beq_iff_eq, Option.any_eq_true] at name
  have seen := (visible_levels _ _ n (root?_tree _) first).1 (by simp [text]) (by simp [kind])
  rw [above] at seen
  exact ⟨_, n, m, root?_tree _, first, second, kind, text, functions, seen, name.1, name.2,
    ((visible_levels _ _ m (root?_tree _) second).2.2.2 (Or.inr name)).2⟩

end Script

end FishNav
