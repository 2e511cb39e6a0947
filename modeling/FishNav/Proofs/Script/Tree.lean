import FishNav.Proofs.Script.Rules
import FishNav.Proofs.Tree.Nodes

/-!
# The tree of a script

The dump of a script always loads (`load_dump`), so every script has a tree. Each of its nodes
stands for a node of the concrete syntax: `Stands text front parts s` says that `s` was read from
`text` behind `front` and has these parts. The children of `s` are the nodes among the parts, in
their order (`Stands.child`), so what the grammar says about parts carries over to the tree
(`exists_stands`).
-/
namespace FishNav

namespace Cst

open Text (byteLength byteLength_append)

/-! ### Places -/

def dumpOf (m : Mark) (kind : Kind) (parts : List Cst) : Dump :=
  { tag := kind.tag?.getD (String.ofList (charsOfAll parts))
    named := kind.isNamed
    span := ⟨m, m.advance (charsOfAll parts)⟩
    children := (placeAll m parts).1 }

mutual

/-- Placing a part moves the mark over its characters, whatever the part is. -/
theorem place_stop (m : Mark) (p : Cst) : (place m p).2 = m.advance p.chars := by
  cases p with
  | text cs => rw [place, chars]
  | node kind parts => rw [place, chars, placeAll_stop m parts]

theorem placeAll_stop (m : Mark) (ps : List Cst) :
    (placeAll m ps).2 = m.advance (charsOfAll ps) := by
  cases ps with
  | nil => rw [placeAll, charsOfAll, Mark.advance_nil]
  | cons p ps =>
    rw [placeAll, charsOfAll, Mark.advance_append]
    simp only [place_stop m p, placeAll_stop _ ps]

end

theorem place_node (m : Mark) (kind : Kind) (parts : List Cst) :
    place m (.node kind parts) = ([dumpOf m kind parts], m.advance (charsOfAll parts)) := by
  rw [place, dumpOf, ← placeAll_stop]

theorem placeAll_cons (m : Mark) (p : Cst) (ps : List Cst) :
    (placeAll m (p :: ps)).1 = (place m p).1 ++ (placeAll (m.advance p.chars) ps).1 := by
  rw [placeAll, ← place_stop]

theorem placeAll_text (m : Mark) (cs : List Char) (ps : List Cst) :
    (placeAll m (.text cs :: ps)).1 = (placeAll (m.advance cs) ps).1 := by
  rw [placeAll_cons, place, chars, List.nil_append]

theorem placeAll_node (m : Mark) (kind : Kind) (parts ps : List Cst) :
    (placeAll m (.node kind parts :: ps)).1 =
      dumpOf m kind parts :: (placeAll (m.advance (charsOfAll parts)) ps).1 := by
  rw [placeAll_cons, place_node, chars, List.singleton_append]

theorem soundAll_append {text : List Char} {outer : Span} {ds es : List Dump} :
    Dump.SoundAll text outer (ds ++ es) ↔
      Dump.SoundAll text outer ds ∧ Dump.SoundAll text outer es := by
  induction ds with
  | nil => simp [Dump.SoundAll]
  | cons d ds ih => simp [Dump.SoundAll, ih, and_assoc]

/-- The marks before and behind a stretch of a text make a sound span. -/
theorem span_sound (front middle back : List Char) :
    (⟨Mark.origin.advance front, Mark.origin.advance (front ++ middle)⟩ : Span).Sound
      (front ++ middle ++ back) := by
  constructor
  · simp only [Mark.origin_advance_byte, Text.byteLength_append]
    omega
  · simp only [Mark.origin_advance_byte, Text.byteLength_append]
    omega
  · rw [Mark.advance_append]
    exact Mark.position_le_advance _ _
  · rw [Mark.origin_advance_byte, List.append_assoc]
    exact Text.isBoundary_append front (middle ++ back)
  · rw [Mark.origin_advance_byte]
    exact Text.isBoundary_append (front ++ middle) back

mutual

theorem place_sound (front back : List Char) (p : Cst) (outer : Span)
    (start : outer.start.byte ≤ byteLength front)
    (stop : byteLength (front ++ p.chars) ≤ outer.stop.byte) :
    Dump.SoundAll (front ++ p.chars ++ back) outer (place (Mark.origin.advance front) p).1 := by
  cases p with
  | text cs =>
    rw [place, Dump.SoundAll]
    trivial
  | node kind parts =>
    rw [chars_node] at stop ⊢
    have span := span_sound front (charsOfAll parts) back
    have below := placeAll_sound front back parts
      ⟨Mark.origin.advance front, Mark.origin.advance (front ++ charsOfAll parts)⟩
      (Nat.le_of_eq (Mark.origin_advance_byte _)) (Nat.le_of_eq (Mark.origin_advance_byte _).symm)
    rw [place_node, dumpOf, ← Mark.advance_append, Dump.SoundAll, Dump.SoundAll, Dump.Sound]
    exact ⟨⟨by rwa [Mark.origin_advance_byte], by rwa [Mark.origin_advance_byte]⟩,
      ⟨span, below⟩, trivial⟩

/-- All nodes of some parts have sound spans inside the span around them. -/
theorem placeAll_sound (front back : List Char) (ps : List Cst) (outer : Span)
    (start : outer.start.byte ≤ byteLength front)
    (stop : byteLength (front ++ charsOfAll ps) ≤ outer.stop.byte) :
    Dump.SoundAll (front ++ charsOfAll ps ++ back) outer
      (placeAll (Mark.origin.advance front) ps).1 := by
  cases ps with
  | nil =>
    rw [placeAll, Dump.SoundAll]
    trivial
  | cons p ps =>
    rw [charsOfAll_cons, ← List.append_assoc] at stop ⊢
    have rest := placeAll_sound (front ++ p.chars) back ps outer
      (by rw [byteLength_append]; omega) stop
    have first := place_sound front (charsOfAll ps ++ back) p outer start
      (by rw [byteLength_append] at stop; omega)
    rw [← List.append_assoc] at first
    rw [placeAll_cons, ← Mark.advance_append, soundAll_append]
    exact ⟨first, rest⟩

end

end Cst

namespace Script

open Text Cst

theorem dump_root (source : String) :
    (dump source).root = dumpOf .origin .program (parts source.toList) := by
  rw [dump, dumpOf, ← placeAll_stop]
  rfl

/-- The dump of every script describes its text, so it is never refused. -/
theorem dump_sound (source : String) : (dump source).root.Sound (dump source).source.toList := by
  have sound := place_sound [] [] (.node .program (parts source.toList))
    ⟨.origin, Mark.origin.advance source.toList⟩ (Nat.le_refl _)
    (by simp [Mark.origin_advance_byte, (parts_spec source.toList).1])
  rw [place_node, Dump.SoundAll, chars_node, (parts_spec source.toList).1, List.append_nil] at sound
  rw [dump_root]
  exact sound.2.1

def tree (source : String) : Tree :=
  match (dump source).load with
  | .ok t => t
  | .error _ => ⟨source, #[], .nil, rfl⟩

/-- The dump of a script is never refused. -/
theorem load_dump (source : String) : (dump source).load = .ok (tree source) := by
  obtain ⟨t, loaded⟩ := TreeDump.load_of_sound (dump_sound source)
  rw [tree, loaded]

def root (source : String) : Node := .root ((dump source).root.subtree source.toList 0)

theorem root?_tree (source : String) : (tree source).root? = some (root source) :=
  (TreeDump.root?_of_load (load_dump source)).2

theorem mem_nodes_iff {source : String} {n : Node} :
    n ∈ (tree source).nodes ↔ Node.Descends (root source) n := by
  rw [Tree.nodes, root?_tree, Node.mem_preorder_iff]

/-- In the tree of a script, numbers tell nodes apart. -/
theorem same_iff {source : String} {m n : Node} (left : Node.Descends (root source) m)
    (right : Node.Descends (root source) n) : m.same n = true ↔ m = n := by
  rw [Node.same, beq_iff_eq]
  exact ⟨Node.eq_of_id_eq left right, congrArg Node.id⟩

/-! ### Nodes and their parts -/

/-- The kinds that the grammar has rules for are known by their tags. -/
theorem Form.ofTag_eq {kind : Kind} {parts : List Cst} (rule : Form kind parts) (text : String) :
    Kind.ofTag (kind.tag?.getD text) kind.isNamed = kind := by
  cases rule <;> rfl

/-- `s` is the subtree of a node with these parts, read from `text` behind `front`. -/
structure Stands (text front : List Char) (parts : List Cst) (s : Subtree) : Prop where
  within : ∃ back, text = front ++ charsOfAll parts ++ back
  rule : Form s.kind parts
  formed : ∀ p ∈ parts, p.Formed
  span : s.span = ⟨Mark.origin.advance front, Mark.origin.advance (front ++ charsOfAll parts)⟩
  spelled : s.text = String.ofList (charsOfAll parts)
  children : s.children =
    Dump.subtrees text (s.id + 1) (placeAll (Mark.origin.advance front) parts).1

/-- A placed node stands in the text right behind what comes before it. -/
theorem stands_dumpOf {text : List Char} (front back : List Char) {kind : Kind}
    {parts : List Cst} (split : text = front ++ charsOfAll parts ++ back)
    (formed : (Cst.node kind parts).Formed) (id : Nat) :
    ((dumpOf (Mark.origin.advance front) kind parts).subtree text id).kind = kind ∧
      Stands text front parts
        ((dumpOf (Mark.origin.advance front) kind parts).subtree text id) := by
  rw [formed_node, formedAll_iff] at formed
  obtain ⟨rule, below⟩ := formed
  have known := rule.ofTag_eq (String.ofList (charsOfAll parts))
  have cut := slice?_append front (charsOfAll parts) back
  rw [← split] at cut
  rw [dumpOf, Dump.subtree]
  refine ⟨known, ⟨back, split⟩, ?_, below, ?_, ?_, rfl⟩
  · rwa [known]
  · rw [Mark.advance_append]
  · rw [← Mark.advance_append, Mark.origin_advance_byte, Mark.origin_advance_byte, cut]
    rfl

theorem exists_subtree_of_placeAll {text : List Char} {c : Subtree} (parts : List Cst) :
    ∀ (front back : List Char) (id i : Nat), text = front ++ charsOfAll parts ++ back →
      (∀ p ∈ parts, p.Formed) →
      (Dump.subtrees text id (placeAll (Mark.origin.advance front) parts).1)[i]? = some c →
      ∃ before inner after, parts = before ++ .node c.kind inner :: after ∧
        before.countP isNode = i ∧ Stands text (front ++ charsOfAll before) inner c := by
  induction parts with
  | nil => simp [placeAll, Dump.subtrees]
  | cons p ps ih =>
    intro front back id i split formed found
    rw [charsOfAll_cons, ← List.append_assoc] at split
    have rest := ih (front ++ p.chars) back
    have more : ∀ q ∈ ps, q.Formed := fun q member => formed q (List.mem_cons_of_mem _ member)
    cases p with
    | text cs =>
      rw [placeAll_text, ← Mark.advance_append] at found
      obtain ⟨before, inner, after, rfl, count, stands⟩ := rest id i split more found
      exact ⟨.text cs :: before, inner, after, rfl, by simp [count, isNode], by simpa using stands⟩
    | node kind parts =>
      rw [placeAll_node, ← Mark.advance_append, Dump.subtrees] at found
      cases i with
      | zero =>
        obtain rfl := Option.some.inj found
        rw [chars_node, List.append_assoc] at split
        obtain ⟨known, stands⟩ := stands_dumpOf front _ split (formed _ List.mem_cons_self) id
        exact ⟨[], parts, ps, by rw [known]; rfl, rfl, by simpa using stands⟩
      | succ i =>
        obtain ⟨before, inner, after, rfl, count, stands⟩ := rest _ i split more found
        exact ⟨.node kind parts :: before, inner, after, rfl,
          by rw [List.countP_cons_of_pos rfl, count], by simpa using stands⟩

theorem length_subtrees (text : List Char) (id : Nat) (m : Mark) (parts : List Cst) :
    (Dump.subtrees text id (placeAll m parts).1).length = parts.countP isNode := by
  induction parts generalizing id m with
  | nil => simp [placeAll, Dump.subtrees]
  | cons p ps ih =>
    cases p with
    | text cs => rw [placeAll_text, ih]; simp [isNode]
    | node kind parts =>
      rw [placeAll_node, Dump.subtrees, List.length_cons, ih, List.countP_cons_of_pos rfl]

theorem exists_between {before after before' after' : List Cst} {p q : Cst}
    (split : before ++ p :: after = before' ++ q :: after')
    (order : before.countP isNode < before'.countP isNode) :
    ∃ between, before' = before ++ p :: between ∧ after = between ++ q :: after' := by
  rcases List.append_eq_append_iff.mp split with ⟨more, rfl, rest⟩ | ⟨more, rfl, rest⟩
  · cases more with
    | nil => simp at order
    | cons r between =>
      obtain ⟨rfl, rfl⟩ := List.cons.inj rest
      exact ⟨between, rfl, rfl⟩
  · rw [List.countP_append] at order
    omega

namespace Stands

variable {text front : List Char} {parts : List Cst} {s : Subtree}

/-- A child is one of the nodes among the parts. -/
theorem child (stands : Stands text front parts s) {i : Nat} {c : Subtree}
    (found : s.children[i]? = some c) :
    ∃ before inner after, parts = before ++ .node c.kind inner :: after ∧
      before.countP isNode = i ∧ Stands text (front ++ charsOfAll before) inner c := by
  obtain ⟨back, split⟩ := stands.within
  rw [stands.children] at found
  exact exists_subtree_of_placeAll parts front back _ i split stands.formed found

/-- Two children with the parts between them. -/
theorem siblings (stands : Stands text front parts s) {i j : Nat} {c d : Subtree}
    (first : s.children[i]? = some c) (second : s.children[j]? = some d) (order : i < j) :
    ∃ before inner between inner' after,
      parts = before ++ .node c.kind inner :: (between ++ .node d.kind inner' :: after) ∧
        i + 1 + between.countP isNode = j ∧ Stands text (front ++ charsOfAll before) inner c ∧
        Stands text (front ++ charsOfAll before ++ charsOfAll inner ++ charsOfAll between)
          inner' d := by
  obtain ⟨before, inner, after, split, count, left⟩ := stands.child first
  obtain ⟨before', inner', after', split', count', right⟩ := stands.child second
  obtain ⟨between, rfl, rfl⟩ := exists_between (split.symm.trans split') (by omega)
  rw [List.countP_append, List.countP_cons_of_pos rfl] at count'
  refine ⟨before, inner, between, inner', after', split, by omega, left, ?_⟩
  simpa using right

theorem length_children (stands : Stands text front parts s) :
    s.children.length = parts.countP isNode := by
  rw [stands.children, length_subtrees]

end Stands

/-- The root covers the whole script. -/
theorem stands_root (source : String) :
    (root source).kind = .program ∧
      Stands source.toList [] (parts source.toList) (root source).self := by
  obtain ⟨chars, formed⟩ := parts_spec source.toList
  have stands := stands_dumpOf [] [] (by rw [chars, List.append_nil, List.nil_append]) formed 0
  rw [root, dump_root]
  exact stands

/-- Every node of the tree stands for a node of the concrete syntax. -/
theorem exists_stands {source : String} {n : Node} (inside : Node.Descends (root source) n) :
    ∃ front parts, Stands source.toList front parts n.self := by
  induction inside with
  | here => exact ⟨_, _, (stands_root source).2⟩
  | down _ step ih =>
    obtain ⟨front, parts, stands⟩ := ih
    obtain ⟨i, s, found, rfl⟩ := Node.mem_children_iff.mp step
    obtain ⟨before, inner, after, -, -, stands⟩ := stands.child found
    exact ⟨_, _, stands⟩

end Script

end FishNav
