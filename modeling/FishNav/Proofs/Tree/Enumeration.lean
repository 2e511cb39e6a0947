import FishNav.Proofs.Tree.Arena
import FishNav.Proofs.Tree.Walks

/-!
# All nodes of a built tree

Whatever changes a builder went through, a tree that it hands out is connected: every entry is
the entry of one node (`exists_node`, `eq_of_id`). The nodes are listed by a queue of numbers in
which a node that is served puts its children behind those that wait (`Serves`), and the way up
goes from parent to parent (`Climbs`). Both come to an end. The queue gives the listing level by
level, with each number once and no node before one that is less deep, and every way up ends at
node 0 (`listing_of_finish`).
-/
namespace FishNav

namespace Node

/-! ### The order of the levels -/

theorem nodup_flatMap_children {level : List Node} (distinct : level.Nodup) :
    (level.flatMap children).Nodup := by
  rw [List.nodup_flatMap]
  refine ⟨fun p _ => pairwise_children p, distinct.imp ?_⟩
  intro p q other m left right
  apply other
  exact Option.some.inj ((parent?_of_mem_children left).symm.trans (parent?_of_mem_children right))

theorem le_length_of_mem_levels {k depth : Nat} {level : List Node} {m : Node}
    (flat : ∀ a ∈ level, a.ancestors.length = depth) (member : m ∈ levels k level) :
    depth ≤ m.ancestors.length := by
  induction k generalizing level depth with
  | zero => cases member
  | succ k ih =>
    rw [levels, List.mem_append] at member
    rcases member with here | below
    · exact Nat.le_of_eq (flat m here).symm
    · refine Nat.le_of_succ_le (ih (fun c step => ?_) below)
      obtain ⟨a, high, step⟩ := List.mem_flatMap.mp step
      rw [ancestors_of_mem_children step, List.length_cons, flat a high]

/-- Levels come one after the other, and no node comes twice. -/
theorem levels_ordered {depth : Nat} (k : Nat) {level : List Node} (distinct : level.Nodup)
    (flat : ∀ a ∈ level, a.ancestors.length = depth) :
    (levels k level).Pairwise fun m n => m ≠ n ∧ m.ancestors.length ≤ n.ancestors.length := by
  induction k generalizing level depth with
  | zero => exact .nil
  | succ k ih =>
    have lower : ∀ c ∈ level.flatMap children, c.ancestors.length = depth + 1 := by
      intro c member
      obtain ⟨a, high, step⟩ := List.mem_flatMap.mp member
      rw [ancestors_of_mem_children step, List.length_cons, flat a high]
    rw [levels, List.pairwise_append]
    refine ⟨?_, ih (nodup_flatMap_children distinct) lower, ?_⟩
    · refine List.Pairwise.imp_of_mem (fun {m n} left right other => ⟨other, ?_⟩) distinct
      exact Nat.le_of_eq ((flat m left).trans (flat n right).symm)
    · intro m here n below
      have deeper := le_length_of_mem_levels lower below
      have depth := flat m here
      refine ⟨?_, by omega⟩
      rintro rfl
      omega

/-- The listing level by level has every node once and goes from the root down. -/
theorem breadthFirst_ordered (n : Node) :
    n.breadthFirst.Pairwise fun l m => l ≠ m ∧ l.ancestors.length ≤ m.ancestors.length :=
  levels_ordered _ (List.nodup_singleton n) fun _ member => by rw [List.mem_singleton.mp member]

end Node

namespace Tree

/-! ### Subtrees and entries -/

/-- What is grown from an entry: its number, and the subtrees of its children. -/
theorem getElem?_grow (text : List Char) (es : List Entry) (id i : Nat) :
    (grow text id es)[i]? = es[i]?.map fun e =>
      { id := id + i
        kind := e.kind
        span := e.span
        text := String.ofList ((Text.slice? text e.span.start.byte e.span.stop.byte).getD [])
        children := e.children.filterMap fun c =>
          if id + i < c then (grow text id es)[c - id]? else none } := by
  induction es generalizing id i with
  | nil => simp [grow]
  | cons e es ih =>
    -- a later number is looked up behind the first subtree
    have later : ∀ c, id < c →
        (grow text id (e :: es))[c - id]? = (grow text (id + 1) es)[c - (id + 1)]? := by
      intro c order
      rw [grow, show c - id = c - (id + 1) + 1 by omega, List.getElem?_cons_succ]
    cases i with
    | zero =>
      have children : e.children.filterMap (fun c =>
            if id + 0 < c then (grow text id (e :: es))[c - id]? else none) =
          e.children.filterMap fun c =>
            if id < c then (grow text (id + 1) es)[c - (id + 1)]? else none := by
        apply List.filterMap_congr
        intro c _
        rw [Nat.add_zero]
        split
        · next order => exact later c order
        · rfl
      rw [List.getElem?_cons_zero, Option.map_some, children]
      rfl
    | succ i =>
      rw [List.getElem?_cons_succ, grow, List.getElem?_cons_succ, ih, ← grow]
      congr 1
      funext f
      congr 1
      · omega
      · apply List.filterMap_congr
        intro c _
        rw [show id + 1 + i = id + (i + 1) by omega]
        split
        · next order => exact (later c (by omega)).symm
        · rfl

def subtrees (t : Tree) : List Subtree := grow t.source.toList 0 t.entries.toList

variable {t : Tree}

theorem exists_entry {i : Nat} (inside : i < t.size) : ∃ e, t.entries[i]? = some e :=
  ⟨_, Array.getElem?_eq_getElem inside⟩

theorem exists_subtree {i : Nat} (inside : i < t.size) : ∃ s, t.subtrees[i]? = some s := by
  obtain ⟨e, found⟩ := exists_entry inside
  rw [subtrees, getElem?_grow, Array.getElem?_toList, found]
  exact ⟨_, rfl⟩

theorem id_of_subtrees {i : Nat} {s : Subtree} (found : t.subtrees[i]? = some s) : s.id = i := by
  rw [subtrees, getElem?_grow, Option.map_eq_some_iff] at found
  obtain ⟨e, -, rfl⟩ := found
  exact Nat.zero_add i

namespace Linked

theorem lt_of_mem_children (linked : t.Linked) {p c : Nat} {q : Entry}
    (found : t.entries[p]? = some q) (member : c ∈ q.children) : p < c := by
  obtain ⟨e, there⟩ := exists_entry (linked.known found member)
  have above := (linked.mem_children_iff there found).mp member
  have later : c ≠ 0 := by
    rintro rfl
    cases (linked.top there).symm.trans above
  obtain ⟨p', above', order⟩ := linked.parent there later
  obtain rfl : p = p' := Option.some.inj (above.symm.trans above')
  exact order

/-- No child of an entry is lost when its subtree is grown. -/
theorem children_of_subtrees (linked : t.Linked) {i : Nat} {s : Subtree}
    (found : t.subtrees[i]? = some s) :
    ∃ e, t.entries[i]? = some e ∧ s.children.map Subtree.id = e.children ∧
      ∀ c ∈ s.children, t.subtrees[c.id]? = some c := by
  rw [subtrees, getElem?_grow, Option.map_eq_some_iff] at found
  obtain ⟨e, there, rfl⟩ := found
  rw [Array.getElem?_toList] at there
  refine ⟨e, there, ?_, ?_⟩
  · rw [List.map_filterMap]
    calc
      _ = e.children.filterMap some := by
        apply List.filterMap_congr
        intro c member
        have order := linked.lt_of_mem_children there member
        obtain ⟨s, grown⟩ := exists_subtree (linked.known there member)
        rw [if_pos (by omega), Nat.sub_zero, ← subtrees, grown, Option.map_some,
          id_of_subtrees grown]
      _ = e.children := List.filterMap_some
  · intro s member
    obtain ⟨c, -, grown⟩ := List.mem_filterMap.mp member
    split at grown
    · rw [Nat.sub_zero] at grown
      rw [id_of_subtrees grown]
      exact grown
    · cases grown

end Linked

end Tree

/-! ### Nodes and entries -/

namespace Node

theorem map_self_place (p : Node) (slot : Nat) (ss : List Subtree) :
    (p.place slot ss).map self = ss := by
  induction ss generalizing slot with
  | nil => rfl
  | cons s ss ih =>
    rw [place, List.map_cons, ih]
    rfl

theorem map_id_children (n : Node) : n.children.map Node.id = n.self.children.map Subtree.id := by
  have selves : n.children.map self = n.self.children := map_self_place n 0 n.self.children
  rw [← selves, List.map_map]
  rfl

end Node

namespace Tree

variable {t : Tree} {r : Node}

theorem root?_spec (root : t.root? = some r) :
    r.id = 0 ∧ r.parent? = none ∧ t.subtrees[0]? = some r.self := by
  obtain ⟨s, first, rfl⟩ := Option.map_eq_some_iff.mp root
  rw [List.head?_eq_getElem?] at first
  exact ⟨id_of_subtrees first, rfl, first⟩

theorem exists_root? (filled : 0 < t.size) : ∃ r, t.root? = some r := by
  obtain ⟨s, first⟩ := exists_subtree filled
  rw [root?, ← subtrees, List.head?_eq_getElem?, first]
  exact ⟨_, rfl⟩

theorem mem_nodes_iff {n : Node} : n ∈ t.nodes ↔ ∃ r, t.root? = some r ∧ Node.Descends r n := by
  unfold nodes
  split
  · next none => simp [none]
  · next r root => simp [root, Node.mem_preorder_iff]

namespace Linked

theorem subtree_of_descends (linked : t.Linked) (root : t.root? = some r) {n : Node}
    (way : Node.Descends r n) : t.subtrees[n.id]? = some n.self := by
  induction way with
  | here =>
    obtain ⟨zero, -, first⟩ := root?_spec root
    rwa [zero]
  | @down p m way step ih =>
    obtain ⟨e, -, -, below⟩ := linked.children_of_subtrees ih
    obtain ⟨i, s, found, rfl⟩ := Node.mem_children_iff.mp step
    exact below s (List.mem_of_getElem? found)

/-- The entry of a node names the same children and the same parent as the node. -/
theorem entry_of_descends (linked : t.Linked) (root : t.root? = some r) {n : Node}
    (way : Node.Descends r n) :
    ∃ e, t.entries[n.id]? = some e ∧ e.children = n.children.map Node.id ∧
      e.parent = n.parent?.map Node.id := by
  obtain ⟨e, found, children, -⟩ :=
    linked.children_of_subtrees (linked.subtree_of_descends root way)
  refine ⟨e, found, by rw [Node.map_id_children, children], ?_⟩
  cases way with
  | here =>
    obtain ⟨zero, above, -⟩ := root?_spec root
    rw [zero] at found
    rw [above]
    exact linked.top found
  | @down p _ way step =>
    obtain ⟨q, upper, below, -⟩ :=
      linked.children_of_subtrees (linked.subtree_of_descends root way)
    rw [Node.parent?_of_mem_children step]
    refine (linked.mem_children_iff found upper).mp ?_
    rw [← below, ← Node.map_id_children]
    exact List.mem_map_of_mem step

/-- The number of a node names it. -/
theorem eq_of_id (linked : t.Linked) (root : t.root? = some r) {m n : Node}
    (left : Node.Descends r m) (right : Node.Descends r n) (same : m.id = n.id) : m = n := by
  have parents : ∀ {m n : Node}, Node.Descends r m → Node.Descends r n → m.id = n.id →
      m.parent?.map Node.id = n.parent?.map Node.id := by
    intro m n left right same
    obtain ⟨e, found, -, parent⟩ := linked.entry_of_descends root left
    obtain ⟨f, found', -, parent'⟩ := linked.entry_of_descends root right
    rw [same] at found
    obtain rfl : e = f := Option.some.inj (found.symm.trans found')
    exact parent.symm.trans parent'
  have top := (root?_spec root).2.1
  induction left generalizing n with
  | here =>
    have above := parents .here right same
    rw [top] at above
    cases right with
    | here => rfl
    | down way step =>
      rw [Node.parent?_of_mem_children step] at above
      cases above
  | @down p m way step ih =>
    have above := parents (way.down step) right same
    rw [Node.parent?_of_mem_children step] at above
    cases right with
    | here =>
      rw [top] at above
      cases above
    | @down q _ way' step' =>
      rw [Node.parent?_of_mem_children step'] at above
      obtain rfl : p = q := ih way' (Option.some.inj above)
      -- siblings have different numbers, since the numbers of children increase
      obtain ⟨e, found, children, -⟩ := linked.entry_of_descends root way
      have distinct : (p.children.map Node.id).Nodup := by
        rw [← children]
        exact (linked.increasing found).imp Nat.ne_of_lt
      exact List.inj_on_of_nodup_map distinct step step' same

/-- Every entry is reached from the root: its parent is, which comes before it. -/
theorem exists_node (linked : t.Linked) (root : t.root? = some r) {i : Nat} (inside : i < t.size) :
    ∃ n, Node.Descends r n ∧ n.id = i := by
  induction i using Nat.strongRecOn with
  | ind i ih =>
    by_cases zero : i = 0
    · exact ⟨r, .here, by rw [zero, (root?_spec root).1]⟩
    · obtain ⟨e, found⟩ := exists_entry inside
      obtain ⟨p, above, order⟩ := linked.parent found zero
      obtain ⟨m, way, rfl⟩ := ih p order (Nat.lt_trans order inside)
      obtain ⟨q, upper, children, -⟩ := linked.entry_of_descends root way
      have member := (linked.mem_children_iff found upper).mpr above
      rw [children] at member
      obtain ⟨n, step, same⟩ := List.mem_map.mp member
      exact ⟨n, way.down step, same⟩

end Linked

/-! ### The queue -/

/-- Nodes wait in a queue; the first is served, and its children queue up behind the others. The
nodes are served in this order until no one waits. -/
inductive Serves (t : Tree) : List Nat → List Nat → Prop
  | done : Serves t [] []
  | next {i : Nat} {e : Entry} {queue served : List Nat} (found : t.entries[i]? = some e)
      (more : Serves t (queue ++ e.children) served) : Serves t (i :: queue) (i :: served)

theorem Serves.unique {queue first second : List Nat} (left : t.Serves queue first)
    (right : t.Serves queue second) : first = second := by
  induction left generalizing second with
  | done =>
    cases right
    rfl
  | next found _ ih =>
    cases right with
    | next found' more =>
      obtain rfl := Option.some.inj (found.symm.trans found')
      rw [ih more]

namespace Linked

/-- While a level is served, the next one queues up: `now` is what is left of the level, and
`ahead` are the children of what is served already. -/
theorem serves_level (linked : t.Linked) (root : t.root? = some r) {k : Nat}
    (rest : ∀ level : List Node, (∀ n ∈ level, Node.Descends r n) →
      (∀ n ∈ level, Node.heightOf n.self ≤ k) →
      t.Serves (level.map Node.id) ((Node.levels k level).map Node.id))
    (now ahead : List Node) (ways : ∀ n ∈ now ++ ahead, Node.Descends r n)
    (heights : ∀ n ∈ ahead ++ now.flatMap Node.children, Node.heightOf n.self ≤ k) :
    t.Serves ((now ++ ahead).map Node.id)
      ((now ++ Node.levels k (ahead ++ now.flatMap Node.children)).map Node.id) := by
  induction now generalizing ahead with
  | nil =>
    rw [List.flatMap_nil, List.append_nil] at heights ⊢
    exact rest ahead ways heights
  | cons n now ih =>
    have way : Node.Descends r n := ways n List.mem_cons_self
    obtain ⟨e, found, children, -⟩ := linked.entry_of_descends root way
    rw [List.flatMap_cons, ← List.append_assoc] at heights ⊢
    have more := ih (ahead ++ n.children)
      (by
        intro m member
        rw [← List.append_assoc, List.mem_append] at member
        rcases member with waiting | step
        · exact ways m (List.mem_cons_of_mem n waiting)
        · exact way.down step)
      heights
    rw [← List.append_assoc, List.map_append, ← children] at more
    exact .next found more

/-- The queue serves a level and then those below it. -/
theorem serves_levels (linked : t.Linked) (root : t.root? = some r) (k : Nat) (level : List Node)
    (ways : ∀ n ∈ level, Node.Descends r n) (heights : ∀ n ∈ level, Node.heightOf n.self ≤ k) :
    t.Serves (level.map Node.id) ((Node.levels k level).map Node.id) := by
  induction k generalizing level with
  | zero =>
    rw [Node.eq_nil_of_height heights]
    exact .done
  | succ k ih =>
    have served := linked.serves_level root ih level [] (by rwa [List.append_nil])
      (Node.height_le_of_mem_flatMap heights)
    rw [List.append_nil, List.nil_append] at served
    exact served

/-- The queue serves the nodes level by level. -/
theorem serves_iff (linked : t.Linked) (root : t.root? = some r) (served : List Nat) :
    t.Serves [0] served ↔ served = r.breadthFirst.map Node.id := by
  have all : t.Serves [0] (r.breadthFirst.map Node.id) := by
    have queue := linked.serves_levels root (Node.heightOf r.self) [r]
      (fun n member => List.mem_singleton.mp member ▸ .here)
      (fun n member => List.mem_singleton.mp member ▸ Nat.le_refl _)
    rwa [List.map_singleton, (root?_spec root).1] at queue
  constructor
  · intro run
    exact run.unique all
  · rintro rfl
    exact all

end Linked

/-! ### The way up -/

/-- The way from a node up, from parent to parent, until a node has none. -/
inductive Climbs (t : Tree) : Nat → List Nat → Prop
  | top {i : Nat} {e : Entry} (found : t.entries[i]? = some e) (above : e.parent = none) :
      Climbs t i [i]
  | up {i p : Nat} {e : Entry} {way : List Nat} (found : t.entries[i]? = some e)
      (above : e.parent = some p) (more : Climbs t p way) : Climbs t i (i :: way)

theorem Climbs.unique {i : Nat} {first second : List Nat} (left : t.Climbs i first)
    (right : t.Climbs i second) : first = second := by
  induction left generalizing second with
  | top found above =>
    cases right with
    | top => rfl
    | up found' above' =>
      obtain rfl := Option.some.inj (found.symm.trans found')
      cases above.symm.trans above'
  | up found above _ ih =>
    cases right with
    | top found' above' =>
      obtain rfl := Option.some.inj (found.symm.trans found')
      cases above.symm.trans above'
    | up found' above' more =>
      obtain rfl := Option.some.inj (found.symm.trans found')
      obtain rfl := Option.some.inj (above.symm.trans above')
      rw [ih more]

namespace Linked

/-- The parents that the entries name are the nodes above a node. -/
theorem climbs_ancestors (linked : t.Linked) (root : t.root? = some r) {n : Node}
    (way : Node.Descends r n) : t.Climbs n.id (n.id :: n.ancestors.map Node.id) := by
  have top := (root?_spec root).2.1
  induction way with
  | here =>
    obtain ⟨e, found, -, above⟩ := linked.entry_of_descends root .here
    have none : r.ancestors = [] := by
      cases r with
      | root s => rfl
      | child p slot s => cases top
    rw [top] at above
    rw [none]
    exact .top found above
  | down way step ih =>
    obtain ⟨e, found, -, above⟩ := linked.entry_of_descends root (way.down step)
    rw [Node.parent?_of_mem_children step] at above
    rw [Node.ancestors_of_mem_children step]
    exact .up found above ih

end Linked

/-- A way up that comes to an end does so where there is no parent. -/
theorem Climbs.last_top {i : Nat} {way : List Nat} (climb : t.Climbs i way) :
    ∃ j e, way.getLast? = some j ∧ t.entries[j]? = some e ∧ e.parent = none := by
  induction climb with
  | top found above => exact ⟨_, _, rfl, found, above⟩
  | @up i p e way found above more ih =>
    obtain ⟨j, f, last, rest⟩ := ih
    refine ⟨j, f, ?_, rest⟩
    rw [List.getLast?_cons, last]
    rfl

/-- Every way up ends at the root. -/
theorem Linked.climbs_zero (linked : t.Linked) {i : Nat} {way : List Nat}
    (climb : t.Climbs i way) : way.getLast? = some 0 := by
  obtain ⟨j, e, last, found, top⟩ := climb.last_top
  by_cases zero : j = 0
  · rw [last, zero]
  · obtain ⟨p, above, -⟩ := linked.parent found zero
    cases top.symm.trans above

/-! ### Trees from a builder -/

/-- A tree that a builder hands out is well linked, whatever its nodes were attached to. The queue
comes to an end and gives every number once, level by level, and every way up ends at node 0. -/
theorem listing_of_finish (source : String) (steps : List Builder.Step) (t : Tree)
    (_finished : (Builder.run source steps).finish = .ok t) (filled : 0 < t.size) :
    t.Linked ∧
      ∃ r, t.root? = some r ∧
        (∀ served, t.Serves [0] served ↔ served = r.breadthFirst.map Node.id) ∧
        (r.breadthFirst.map Node.id).Perm (List.range t.size) ∧
        r.breadthFirst.Pairwise (fun m n => m.ancestors.length ≤ n.ancestors.length) ∧
        ∀ n ∈ r.breadthFirst,
          (∀ way, t.Climbs n.id way ↔ way = n.id :: n.ancestors.map Node.id) ∧
            (n.id :: n.ancestors.map Node.id).getLast? = some 0 := by
  have linked := t.linked
  obtain ⟨s, first⟩ := exists_subtree filled
  have root : t.root? = some (.root s) := by
    rw [root?, ← subtrees, List.head?_eq_getElem?, first]
    rfl
  have ordered := (Node.root s).breadthFirst_ordered
  refine ⟨linked, .root s, root, linked.serves_iff root, ?_, ordered.imp And.right, ?_⟩
  · have distinct : ((Node.root s).breadthFirst.map Node.id).Nodup := by
      refine List.Nodup.map_on ?_ (ordered.imp And.left)
      intro m left n right
      exact linked.eq_of_id root (Node.mem_breadthFirst_iff.mp left)
        (Node.mem_breadthFirst_iff.mp right)
    rw [List.perm_ext_iff_of_nodup distinct List.nodup_range]
    intro i
    rw [List.mem_map, List.mem_range]
    constructor
    · rintro ⟨n, member, rfl⟩
      obtain ⟨e, found, -⟩ :=
        linked.entry_of_descends root (Node.mem_breadthFirst_iff.mp member)
      exact (Array.getElem?_eq_some_iff.mp found).1
    · intro inside
      obtain ⟨n, way, same⟩ := linked.exists_node root inside
      exact ⟨n, Node.mem_breadthFirst_iff.mpr way, same⟩
  · intro n member
    have climb := linked.climbs_ancestors root (Node.mem_breadthFirst_iff.mp member)
    refine ⟨fun way => ⟨fun other => other.unique climb, ?_⟩, linked.climbs_zero climb⟩
    rintro rfl
    exact climb

/-- A root under a parent that is not there, two nodes below it that get their children in the
other order, and the end of a node that is not there. -/
def crossedSteps : List Builder.Step :=
  let mark (byte : Nat) : Mark := ⟨byte, ⟨0, byte⟩⟩
  [.push (some 7) .program ⟨mark 0, mark 0⟩,
    .setStop 0 (mark 3),
    .push (some 0) .command ⟨mark 0, mark 1⟩,
    .push (some 0) .command ⟨mark 2, mark 3⟩,
    .push (some 2) .word ⟨mark 2, mark 3⟩,
    .push (some 1) .word ⟨mark 0, mark 1⟩,
    .setStop 9 (mark 1)]

/-- The queue does not follow the numbers, and the ways up do not depend on it. -/
theorem listing_of_crossedSteps :
    ∃ t, (Builder.run "a b" crossedSteps).finish = .ok t ∧ t.size = 5 ∧ t.Linked ∧
      t.Serves [0] [0, 1, 2, 4, 3] ∧ t.Climbs 4 [4, 1, 0] := by
  have built : (Builder.run "a b" crossedSteps).finish.toOption.any (fun t => t.size == 5 &&
      t.root?.any fun r => r.breadthFirst.map Node.id == [0, 1, 2, 4, 3] &&
        r.breadthFirst.any fun n => n.id == 4 && n.ancestors.map Node.id == [1, 0]) = true := by
    decide +kernel
  obtain ⟨t, finished, holds⟩ := exists_ok_of_any built
  rw [Bool.and_eq_true, beq_iff_eq] at holds
  obtain ⟨size, holds⟩ := holds
  obtain ⟨linked, r, root, queue, -, -, climbs⟩ :=
    listing_of_finish "a b" crossedSteps t finished (by omega)
  rw [root] at holds
  simp only [Option.any_some, Bool.and_eq_true, beq_iff_eq, List.any_eq_true] at holds
  obtain ⟨listing, n, member, four, above⟩ := holds
  have climb := (climbs n member).1 [4, 1, 0]
  rw [four, above] at climb
  exact ⟨t, finished, size, linked, (queue _).mpr listing.symm, climb.mpr rfl⟩

end Tree

end FishNav
