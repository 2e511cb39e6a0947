import FishNav.Proofs.Tree.Faults
import FishNav.Tree.Comments

/-!
# Siblings

The entry of a node says who its parent is and at which place among the parent's children it stands,
so the sibling on either side is one place further (`Tree.neighbour?`). The nearest named sibling is
found from neighbour to neighbour (`Finds`), and the comments directly above a node from one named
sibling to the one before it (`Gathers`). Both walks end, and they agree with the list of children
whatever changes the tree was built by: the nearest named siblings are the neighbours in the list of
named children, on one side just when on the other, and the comments are the longest run of them
that ends right before the node (`siblings_of_finish`).
-/
namespace FishNav

/-- A side of a node among its siblings. -/
inductive Side where
  | before
  | after
  deriving DecidableEq, Repr

namespace Node

variable {m n p : Node} {side : Side} {front back rest : List Node}

/-! ### Children of one parent -/

/-- The siblings on one side, nearest first. -/
def beside (n : Node) : Side → List Node
  | .before => n.before
  | .after => n.after

/-- Where a node stands among the children of its parent says what its siblings are. -/
theorem siblings_of_split (split : p.children = front ++ n :: back) :
    n.before = front.reverse ∧ n.after = back := by
  have place : p.children[front.length]? = some n := by simp [split]
  rw [getElem?_children, Option.map_eq_some_iff] at place
  obtain ⟨s, -, rfl⟩ := place
  constructor
  · rw [before, split, List.take_left']
    rfl
  · rw [after, split, List.append_cons, List.drop_left']
    simp

/-- The siblings beyond a neighbour are the neighbour's own. -/
theorem beside_of_neighbour (step : n ∈ p.children) (near : n.beside side = m :: rest) :
    m ∈ p.children ∧ m.beside side = rest := by
  obtain ⟨front, back, split⟩ := List.append_of_mem step
  obtain ⟨before, after⟩ := siblings_of_split split
  cases side with
  | before =>
    have order : front = rest.reverse ++ [m] := by
      rw [← List.reverse_inj, ← before, List.reverse_append, List.reverse_reverse]
      exact near
    rw [order, List.append_assoc] at split
    refine ⟨by rw [split]; simp, ?_⟩
    rw [beside, (siblings_of_split split).1, List.reverse_reverse]
  | after =>
    obtain rfl : back = m :: rest := after.symm.trans near
    rw [List.append_cons] at split
    exact ⟨by rw [split]; simp, (siblings_of_split split).2⟩

/-- `m` and `n` are children of `p`, `m` before `n`, and nothing between them is named. -/
def Consecutive (p m n : Node) : Prop :=
  ∃ front gap back, p.children = front ++ m :: (gap ++ n :: back) ∧ ∀ c ∈ gap, c.isNamed = false

/-- The next named sibling, told from the list of children. -/
theorem nextNamed?_eq_some_iff (step : m ∈ p.children) :
    m.nextNamed? = some n ↔ n.isNamed = true ∧ p.Consecutive m n := by
  rw [nextNamed?, List.find?_eq_some_iff_append]
  refine and_congr_right fun _ => ?_
  constructor
  · rintro ⟨gap, back, later, plain⟩
    obtain ⟨front, behind, split⟩ := List.append_of_mem step
    rw [← (siblings_of_split split).2, later] at split
    exact ⟨front, gap, back, split, by simpa using plain⟩
  · rintro ⟨front, gap, back, split, plain⟩
    exact ⟨gap, back, (siblings_of_split split).2, by simpa using plain⟩

theorem previousNamed?_eq_some_iff (step : n ∈ p.children) :
    n.previousNamed? = some m ↔ m.isNamed = true ∧ p.Consecutive m n := by
  rw [previousNamed?, List.find?_eq_some_iff_append]
  refine and_congr_right fun _ => ?_
  constructor
  · rintro ⟨gap, front, earlier, plain⟩
    obtain ⟨ahead, back, split⟩ := List.append_of_mem step
    have order : ahead = front.reverse ++ m :: gap.reverse := by
      rw [← List.reverse_inj, ← (siblings_of_split split).1, earlier]
      simp
    refine ⟨front.reverse, gap.reverse, back, ?_, by simpa using plain⟩
    rw [split, order, List.append_assoc, List.cons_append]
  · rintro ⟨front, gap, back, split, plain⟩
    rw [← List.cons_append, ← List.append_assoc] at split
    refine ⟨gap.reverse, front.reverse, ?_, by simpa using plain⟩
    rw [(siblings_of_split split).1]
    simp

theorem Consecutive.mem_children (consecutive : p.Consecutive m n) :
    m ∈ p.children ∧ n ∈ p.children := by
  obtain ⟨front, gap, back, split, -⟩ := consecutive
  simp [split]

/-! ### Comments -/

/-- The named siblings before a node are the nearest one and those before it. -/
theorem named_before_of_previous (step : n ∈ p.children) (near : n.previousNamed? = some m) :
    n.before.filter isNamed = m :: m.before.filter isNamed := by
  obtain ⟨named, front, gap, back, split, plain⟩ := (previousNamed?_eq_some_iff step).mp near
  have nothing : gap.reverse.filter isNamed = [] := by simpa using plain
  have here := (siblings_of_split split).1
  rw [← List.cons_append, ← List.append_assoc] at split
  rw [(siblings_of_split split).1, here, List.reverse_append, List.reverse_cons,
    List.append_assoc, List.filter_append, nothing]
  simp [named]

/-- The comments above a node are gathered from one named sibling to the one before it. -/
theorem commentRun_of_previous (step : n ∈ p.children) (near : n.previousNamed? = some m) :
    n.commentRun = if m.kind = .comment then m :: m.commentRun else [] := by
  rw [commentRun, named_before_of_previous step near, List.takeWhile_cons, commentRun]
  by_cases comment : m.kind = .comment <;> simp [isComment, comment]

theorem commentRun_of_first (first : n.previousNamed? = none) : n.commentRun = [] := by
  have nothing : n.before.filter isNamed = [] := by
    rw [List.filter_eq_nil_iff]
    exact List.find?_eq_none.mp first
  rw [commentRun, nothing, List.takeWhile_nil]

/-- `run` is the longest run of comments at the end of a list of nodes. -/
def EndsWith (nodes run : List Node) : Prop :=
  ∃ others, nodes = others ++ run ∧ (∀ c ∈ run, c.isComment = true) ∧
    ∀ c, others.getLast? = some c → c.isComment = false

/-- The longest run at the end is unique. -/
theorem EndsWith.eq_takeWhile {nodes run : List Node} (ends : EndsWith nodes run) :
    run.reverse = nodes.reverse.takeWhile isComment := by
  obtain ⟨others, rfl, comments, stopped⟩ := ends
  have none : others.reverse.takeWhile isComment = [] := by
    cases order : others.reverse with
    | nil => rfl
    | cons c rest =>
      have last := stopped c (by rw [← List.head?_reverse, order, List.head?_cons])
      exact List.takeWhile_cons_of_neg (by simp [last])
  rw [List.reverse_append, List.takeWhile_append_of_pos (by simpa using comments), none,
    List.append_nil]

theorem endsWith_commentRun (split : p.children = front ++ n :: back) :
    EndsWith (front.filter isNamed) n.commentRun.reverse := by
  have earlier : n.before.filter isNamed = (front.filter isNamed).reverse := by
    rw [(siblings_of_split split).1, List.filter_reverse]
  refine ⟨((n.before.filter isNamed).dropWhile isComment).reverse, ?_, ?_, ?_⟩
  · rw [commentRun, ← List.reverse_append, List.takeWhile_append_dropWhile, earlier,
      List.reverse_reverse]
  · intro c member
    exact List.all_eq_true.mp List.all_takeWhile c (List.mem_reverse.mp member)
  · intro c last
    rw [List.getLast?_reverse] at last
    have stopped := List.head?_dropWhile_not isComment (n.before.filter isNamed)
    rw [last] at stopped
    exact stopped

theorem endsWith_iff (split : p.children = front ++ n :: back) (run : List Node) :
    EndsWith (front.filter isNamed) run ↔ run = n.commentRun.reverse := by
  have own := endsWith_commentRun split
  constructor
  · intro ends
    rw [← List.reverse_inj, ends.eq_takeWhile, own.eq_takeWhile]
  · rintro rfl
    exact own

theorem commentedRange_eq (n : Node) :
    n.commentedRange = ⟨(n.commentRun.reverse.head?.map start).getD n.start, n.stop⟩ := by
  rw [commentedRange, List.head?_reverse]
  split
  · next none =>
    rw [none]
    rfl
  · next first last =>
    rw [last]
    rfl

end Node

/-! ### Walks over entries -/

namespace Tree

/-- The place next to a place among the children of a node. -/
def placeBeside? (slot : Nat) : Side → Option Nat
  | .before => if slot = 0 then none else some (slot - 1)
  | .after => some (slot + 1)

/-- The sibling right before or behind a node, as the entries tell it. -/
def neighbour? (t : Tree) (side : Side) (i : Nat) : Option Nat := do
  let e ← t.entries[i]?
  let parent ← e.parent
  let q ← t.entries[parent]?
  let slot ← placeBeside? e.slot side
  q.children[slot]?

/-- Goes from neighbour to neighbour on one side up to the first that is named. -/
inductive Finds (t : Tree) (side : Side) : Nat → Option Nat → Prop
  | nothing {i : Nat} (last : t.neighbour? side i = none) : Finds t side i none
  | named {i j : Nat} {e : Entry} (next : t.neighbour? side i = some j)
      (entry : t.entries[j]? = some e) (named : e.kind.isNamed = true) : Finds t side i (some j)
  | skip {i j : Nat} {e : Entry} {found : Option Nat} (next : t.neighbour? side i = some j)
      (entry : t.entries[j]? = some e) (plain : e.kind.isNamed = false)
      (more : Finds t side j found) : Finds t side i found

/-- Goes back from one named sibling to the one before it as long as they are comments. -/
inductive Gathers (t : Tree) : Nat → List Nat → Prop
  | first {i : Nat} (back : t.Finds .before i none) : Gathers t i []
  | other {i j : Nat} {e : Entry} (back : t.Finds .before i (some j))
      (entry : t.entries[j]? = some e) (kind : e.kind ≠ .comment) : Gathers t i []
  | comment {i j : Nat} {e : Entry} {run : List Nat} (back : t.Finds .before i (some j))
      (entry : t.entries[j]? = some e) (kind : e.kind = .comment) (more : Gathers t j run) :
      Gathers t i (j :: run)

variable {t : Tree} {m n p : Node} {side : Side}

theorem Finds.unique {i : Nat} {first second : Option Nat} (left : t.Finds side i first)
    (right : t.Finds side i second) : first = second := by
  induction left with
  | nothing last =>
    cases right with
    | nothing => rfl
    | named next => cases last.symm.trans next
    | skip next => cases last.symm.trans next
  | named next entry named =>
    cases right with
    | nothing last => cases last.symm.trans next
    | named next' => exact next.symm.trans next'
    | skip next' entry' plain =>
      obtain rfl := Option.some.inj (next.symm.trans next')
      obtain rfl := Option.some.inj (entry.symm.trans entry')
      cases named.symm.trans plain
  | skip next entry plain _ ih =>
    cases right with
    | nothing last => cases last.symm.trans next
    | named next' entry' named =>
      obtain rfl := Option.some.inj (next.symm.trans next')
      obtain rfl := Option.some.inj (entry.symm.trans entry')
      cases named.symm.trans plain
    | skip next' _ _ more =>
      obtain rfl := Option.some.inj (next.symm.trans next')
      exact ih more

theorem Gathers.unique {i : Nat} {first second : List Nat} (left : t.Gathers i first)
    (right : t.Gathers i second) : first = second := by
  induction left generalizing second with
  | first back =>
    cases right with
    | first | other => rfl
    | comment back' => cases back.unique back'
  | other back entry kind =>
    cases right with
    | first | other => rfl
    | comment back' entry' kind' =>
      obtain rfl := Option.some.inj (back.unique back')
      obtain rfl := Option.some.inj (entry.symm.trans entry')
      exact absurd kind' kind
  | comment back entry kind _ ih =>
    cases right with
    | first back' => cases back.unique back'
    | other back' entry' kind' =>
      obtain rfl := Option.some.inj (back.unique back')
      obtain rfl := Option.some.inj (entry.symm.trans entry')
      exact absurd kind kind'
    | comment back' _ _ more =>
      obtain rfl := Option.some.inj (back.unique back')
      rw [ih more]

theorem mem_children_of_parent? (member : n ∈ t.nodes) (above : n.parent? = some p) :
    n ∈ p.children := by
  obtain ⟨r, root, way⟩ := mem_nodes_iff.mp member
  obtain ⟨s, -, rfl⟩ := Option.map_eq_some_iff.mp root
  exact (way.of_parent? above).2

theorem mem_nodes_of_mem_children (upper : p ∈ t.nodes) (step : n ∈ p.children) : n ∈ t.nodes := by
  obtain ⟨r, root, way⟩ := mem_nodes_iff.mp upper
  exact mem_nodes_iff.mpr ⟨r, root, way.down step⟩

namespace Linked

theorem kind_of_mem (linked : t.Linked) (member : n ∈ t.nodes) :
    ∃ e, t.entries[n.id]? = some e ∧ e.kind = n.kind := by
  obtain ⟨e, found, same, -⟩ := linked.account_of_mem member
  exact ⟨e, found, congrArg Account.kind same⟩

/-- The place that the entry of a node has kept is the one among the children of the parent. -/
theorem slot_of_split (linked : t.Linked) (upper : p ∈ t.nodes) {front back : List Node}
    (split : p.children = front ++ n :: back) :
    ∃ e q, t.entries[n.id]? = some e ∧ e.parent = some p.id ∧ t.entries[p.id]? = some q ∧
      q.children = p.children.map Node.id ∧ e.slot = front.length := by
  obtain ⟨r, root, way⟩ := mem_nodes_iff.mp upper
  have step : n ∈ p.children := by rw [split]; simp
  obtain ⟨q, outer, children, -⟩ := linked.entry_of_descends root way
  obtain ⟨e, found, -, above⟩ := linked.entry_of_descends root (way.down step)
  rw [Node.parent?_of_mem_children step] at above
  refine ⟨e, q, found, above, outer, children, ?_⟩
  have distinct : q.children.Nodup := (linked.increasing outer).imp Nat.ne_of_lt
  have kept : q.children[e.slot]? = some n.id := (linked.once found outer above).2
  have place : q.children[front.length]? = some n.id := by simp [children, split]
  have inside := (List.getElem?_eq_some_iff.mp kept).1
  exact (List.getElem?_inj inside distinct).mp (kept.trans place.symm)

/-- The neighbour that the entries tell is the nearest sibling. -/
theorem neighbour?_eq (linked : t.Linked) (upper : p ∈ t.nodes) (step : n ∈ p.children) :
    t.neighbour? side n.id = (n.beside side).head?.map Node.id := by
  obtain ⟨front, back, split⟩ := List.append_of_mem step
  obtain ⟨before, after⟩ := Node.siblings_of_split split
  obtain ⟨e, q, found, parent, entry, children, slot⟩ := linked.slot_of_split upper split
  have opened : t.neighbour? side n.id =
      (placeBeside? front.length side).bind fun place => (p.children.map Node.id)[place]? := by
    simp [neighbour?, found, parent, entry, children, slot]
  rw [opened, split]
  cases side with
  | before =>
    rw [Node.beside, before, List.head?_reverse]
    rcases List.eq_nil_or_concat front with rfl | ⟨front, m, rfl⟩
    · rfl
    · simp [placeBeside?]
  | after =>
    rw [Node.beside, after]
    cases back <;> simp [placeBeside?]

/-- The walk from neighbour to neighbour ends at the nearest named sibling. -/
theorem finds_nearest (linked : t.Linked) (upper : p ∈ t.nodes) (step : n ∈ p.children) :
    t.Finds side n.id (((n.beside side).find? Node.isNamed).map Node.id) := by
  -- what is left on this side gets shorter with each neighbour
  induction siblings : n.beside side generalizing n with
  | nil =>
    refine .nothing ?_
    rw [linked.neighbour?_eq upper step, siblings]
    rfl
  | cons m rest ih =>
    obtain ⟨stepM, others⟩ := Node.beside_of_neighbour step siblings
    have next : t.neighbour? side n.id = some m.id := by
      rw [linked.neighbour?_eq upper step, siblings]
      rfl
    obtain ⟨e, entry, kind⟩ := linked.kind_of_mem (mem_nodes_of_mem_children upper stepM)
    cases named : m.isNamed with
    | true =>
      rw [List.find?_cons_of_pos named]
      exact .named next entry (kind ▸ named)
    | false =>
      rw [List.find?_cons_of_neg (by simp [named])]
      exact .skip next entry (kind ▸ named) (ih stepM others)

/-- Going from neighbour to neighbour finds the nearest named sibling. -/
theorem finds_iff (linked : t.Linked) (upper : p ∈ t.nodes) (step : n ∈ p.children)
    (found : Option Nat) :
    t.Finds side n.id found ↔ found = ((n.beside side).find? Node.isNamed).map Node.id := by
  have walk := @finds_nearest t n p side linked upper step
  constructor
  · intro other
    exact other.unique walk
  · rintro rfl
    exact walk

/-- The walk back over comments gives those directly above the node, nearest first. -/
theorem gathers_commentRun (linked : t.Linked) (upper : p ∈ t.nodes) (step : n ∈ p.children) :
    t.Gathers n.id (n.commentRun.map Node.id) := by
  have back : t.Finds .before n.id (n.previousNamed?.map Node.id) :=
    linked.finds_nearest upper step
  -- each named sibling has fewer named siblings before it
  induction size : (n.before.filter Node.isNamed).length using Nat.strongRecOn generalizing n with
  | ind k ih =>
    cases near : n.previousNamed? with
    | none =>
      rw [near] at back
      rw [Node.commentRun_of_first near]
      exact .first back
    | some m =>
      have stepM : m ∈ p.children :=
        ((Node.previousNamed?_eq_some_iff step).mp near).2.mem_children.1
      obtain ⟨e, entry, kind⟩ := linked.kind_of_mem (mem_nodes_of_mem_children upper stepM)
      rw [near] at back
      rw [Node.commentRun_of_previous step near]
      by_cases comment : m.kind = .comment
      · rw [if_pos comment]
        rw [Node.named_before_of_previous step near, List.length_cons] at size
        exact .comment back entry (kind.trans comment)
          (ih _ (by omega) stepM (linked.finds_nearest upper stepM) rfl)
      · rw [if_neg comment]
        exact .other back entry (kind ▸ comment)

/-- Going back along comments gathers the comments directly above. -/
theorem gathers_iff (linked : t.Linked) (upper : p ∈ t.nodes) (step : n ∈ p.children)
    (run : List Nat) : t.Gathers n.id run ↔ run = n.commentRun.map Node.id := by
  have walk := linked.gathers_commentRun upper step
  constructor
  · intro other
    exact other.unique walk
  · rintro rfl
    exact walk

end Linked

/-! ### Trees from a builder -/

/-- On one side of a gap just when on the other. -/
theorem nextNamed?_iff_previousNamed? (memberM : m ∈ t.nodes) (memberN : n ∈ t.nodes)
    (namedM : m.isNamed = true) (namedN : n.isNamed = true) :
    m.nextNamed? = some n ↔ n.previousNamed? = some m := by
  constructor
  · intro next
    cases above : m.parent? with
    | none =>
      cases m with
      | root s => cases next
      | child q slot s => cases above
    | some p =>
      have stepM := mem_children_of_parent? memberM above
      obtain ⟨-, consecutive⟩ := (Node.nextNamed?_eq_some_iff stepM).mp next
      exact (Node.previousNamed?_eq_some_iff consecutive.mem_children.2).mpr ⟨namedM, consecutive⟩
  · intro previous
    cases above : n.parent? with
    | none =>
      cases n with
      | root s => cases previous
      | child q slot s => cases above
    | some p =>
      have stepN := mem_children_of_parent? memberN above
      obtain ⟨-, consecutive⟩ := (Node.previousNamed?_eq_some_iff stepN).mp previous
      exact (Node.nextNamed?_eq_some_iff consecutive.mem_children.1).mpr ⟨namedN, consecutive⟩

/-- In a tree that a builder hands out the walks over the entries agree with the lists of children.
A node stands between the children before and behind it; the nearest named ones of them are its
named neighbours, and each is the neighbour of the other. The comments that end the list of the
named children before it are those whose texts describe it and where its widened range starts. -/
theorem siblings_of_finish (source : String) (steps : List Builder.Step) (t : Tree)
    (_finished : (Builder.run source steps).finish = .ok t) :
    (∀ n ∈ t.nodes, ∀ p, n.parent? = some p → ∃ front back,
      p.children = front ++ n :: back ∧
      n.previousNamed? = (front.filter Node.isNamed).getLast? ∧
      n.nextNamed? = (back.filter Node.isNamed).head? ∧
      (∀ found, t.Finds .before n.id found ↔ found = n.previousNamed?.map Node.id) ∧
      (∀ found, t.Finds .after n.id found ↔ found = n.nextNamed?.map Node.id) ∧
      ∃ run, (∀ other, Node.EndsWith (front.filter Node.isNamed) other ↔ other = run) ∧
        (∀ ids, t.Gathers n.id ids ↔ ids = run.reverse.map Node.id) ∧
        n.comments = "\n".intercalate (run.map fun c => Node.stripComment c.text) ∧
        n.commentedRange = ⟨(run.head?.map Node.start).getD n.start, n.stop⟩) ∧
    ∀ m ∈ t.nodes, ∀ n ∈ t.nodes, m.isNamed = true → n.isNamed = true →
      (m.nextNamed? = some n ↔ n.previousNamed? = some m) := by
  have linked := t.linked
  refine ⟨?_, fun m memberM n memberN => nextNamed?_iff_previousNamed? memberM memberN⟩
  intro n member p above
  have upper := mem_nodes_of_parent? member above
  have step := mem_children_of_parent? member above
  obtain ⟨front, back, split⟩ := List.append_of_mem step
  obtain ⟨before, after⟩ := Node.siblings_of_split split
  refine ⟨front, back, split, ?_, ?_, linked.finds_iff upper step, linked.finds_iff upper step,
    n.commentRun.reverse, Node.endsWith_iff split, ?_, rfl, n.commentedRange_eq⟩
  · rw [Node.previousNamed?, before, ← List.head?_filter, List.filter_reverse, List.head?_reverse]
  · rw [Node.nextNamed?, after, List.head?_filter]
  · rw [List.reverse_reverse]
    exact linked.gathers_iff upper step

/-- Two comments with a separator between them, and one that is separated by a command. The word
below the command comes last, so numbers do not tell places. -/
def remarkSteps : List Builder.Step :=
  let mark (byte : Nat) : Mark := ⟨byte, ⟨0, byte⟩⟩
  [.push none .program ⟨mark 0, mark 0⟩,
    .push (some 0) .comment ⟨mark 0, mark 2⟩,
    .push (some 0) .command ⟨mark 3, mark 4⟩,
    .push (some 0) .comment ⟨mark 5, mark 7⟩,
    .push (some 0) .anonymous ⟨mark 8, mark 9⟩,
    .push (some 0) .comment ⟨mark 10, mark 14⟩,
    .push (some 0) .command ⟨mark 15, mark 16⟩,
    .push (some 2) .word ⟨mark 3, mark 4⟩,
    .setStop 0 (mark 16)]

/-- The walk back from node 6 goes to node 5, skips node 4 and goes on to node 3, where it ends. -/
theorem siblings_of_remarkSteps :
    ∃ t n, (Builder.run "#a b #c ; ## d e" remarkSteps).finish = .ok t ∧ n ∈ t.nodes ∧
      n.id = 6 ∧ n.parent?.map Node.id = some 0 ∧ t.Finds .before 6 (some 5) ∧
      t.Finds .after 6 none ∧ t.Gathers 6 [5, 3] ∧ n.comments = "c\nd" ∧
      n.commentedRange = ⟨⟨0, 5⟩, ⟨0, 16⟩⟩ := by
  have built : (Builder.run "#a b #c ; ## d e" remarkSteps).finish.toOption.any (fun t =>
      t.nodes.any fun n => n.id == 6 && n.parent?.map Node.id == some 0 &&
        n.previousNamed?.map Node.id == some 5 && n.nextNamed?.isNone &&
        n.commentRun.map Node.id == [5, 3] && n.comments == "c\nd" &&
        n.commentedRange == ⟨⟨0, 5⟩, ⟨0, 16⟩⟩) = true := by decide +kernel
  obtain ⟨t, finished, holds⟩ := exists_ok_of_any built
  simp only [List.any_eq_true, Bool.and_eq_true, beq_iff_eq, Option.isNone_iff_eq_none] at holds
  obtain ⟨n, member, ⟨⟨⟨⟨⟨id, parent⟩, previous⟩, next⟩, comments⟩, text⟩, range⟩ := holds
  obtain ⟨p, above, -⟩ := Option.map_eq_some_iff.mp parent
  obtain ⟨walks, -⟩ := siblings_of_finish _ _ t finished
  obtain ⟨front, back, split, -, -, before, after, run, ends, gathers, -⟩ :=
    walks n member p above
  have own := (ends _).mp (Node.endsWith_commentRun split)
  rw [← own, List.reverse_reverse, comments] at gathers
  rw [id] at before after gathers
  exact ⟨t, n, finished, member, id, parent, (before _).mpr previous.symm,
    (after _).mpr (by rw [next]; rfl), (gathers _).mpr rfl, text, range⟩

end Tree

end FishNav
