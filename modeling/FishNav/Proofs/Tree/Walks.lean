import FishNav.Proofs.Tree.Nodes

/-!
# Walks through a tree

The two ways in which the nodes of a tree are listed. The preorder is a node and then the preorders
of its children (`preorder_eq`); it has every node once (`nodup_preorder`). The listing level by
level has the same nodes (`mem_breadthFirst_iff`).
-/
namespace FishNav.Node

/-- To show something of all nodes, show it of a node from its children. -/
theorem induction_children {motive : Node → Prop}
    (step : ∀ n : Node, (∀ c ∈ n.children, motive c) → motive n) (n : Node) : motive n := by
  generalize size : sizeOf n.self = k
  induction k using Nat.strongRecOn generalizing n with
  | ind k ih =>
    refine step n fun c member => ih (sizeOf c.self) ?_ c rfl
    obtain ⟨i, s, found, rfl⟩ := mem_children_iff.mp member
    have smaller := List.sizeOf_lt_of_mem (List.mem_of_getElem? found)
    rw [← size, self]
    revert smaller
    cases n.self
    simp
    omega

/-! ### Preorder -/

theorem listingOfAll_eq (p : Node) (slot : Nat) (ss : List Subtree) :
    listingOfAll p slot ss = (p.place slot ss).flatMap preorder := by
  induction ss generalizing slot with
  | nil => rw [listingOfAll, place, List.flatMap_nil]
  | cons s ss ih =>
    rw [listingOfAll, place, List.flatMap_cons, ih]
    rfl

theorem preorder_eq (n : Node) : n.preorder = n :: n.children.flatMap preorder := by
  have opened : ∀ (put : Subtree → Node) (s : Subtree), (put s).self = s →
      listing put s = put s :: (put s).children.flatMap preorder := by
    intro put s self
    cases s with
    | mk id kind span text children =>
      rw [listing, listingOfAll_eq, Node.children, self]
  have self : (n.put n.self).self = n.self := by rw [put_self]
  rw [preorder, opened n.put n.self self, put_self]

theorem Descends.length_le {a n : Node} (way : Descends a n) :
    a.ancestors.length ≤ n.ancestors.length := by
  rcases way.eq_or_mem_ancestors with rfl | above
  · exact Nat.le_refl _
  · exact Nat.le_of_lt (length_ancestors_lt above)

/-- Of the nodes above a node only one is at each depth. -/
theorem Descends.eq_of_length {a b n : Node} (left : Descends a n) (right : Descends b n)
    (depth : a.ancestors.length = b.ancestors.length) : a = b := by
  induction left with
  | here =>
    rcases right.eq_or_mem_ancestors with rfl | above
    · rfl
    · have := length_ancestors_lt above
      omega
  | down way step ih =>
    cases right with
    | here =>
      have := way.length_le
      rw [ancestors_of_mem_children step, List.length_cons] at depth
      omega
    | down way' step' =>
      have parent := parent?_of_mem_children step
      rw [parent?_of_mem_children step', Option.some.injEq] at parent
      subst parent
      exact ih way'

theorem pairwise_children (p : Node) : p.children.Pairwise (· ≠ ·) := by
  rw [List.pairwise_iff_getElem]
  intro i j hi hj order same
  have first := List.getElem?_eq_getElem hi
  have second := List.getElem?_eq_getElem hj
  rw [← same, getElem?_children, Option.map_eq_some_iff] at second
  rw [getElem?_children, Option.map_eq_some_iff] at first
  obtain ⟨s, -, first⟩ := first
  obtain ⟨t, -, second⟩ := second
  have slots := first.trans second.symm
  injection slots with _ slot
  omega

/-- No node comes twice. -/
theorem nodup_preorder (n : Node) : n.preorder.Nodup := by
  induction n using induction_children with
  | step n ih =>
    rw [preorder_eq, List.nodup_cons, List.nodup_flatMap]
    refine ⟨?_, ih, ?_⟩
    · intro below
      obtain ⟨c, step, member⟩ := List.mem_flatMap.mp below
      have deeper := (mem_preorder_iff.mp member).length_le
      rw [ancestors_of_mem_children step, List.length_cons] at deeper
      omega
    · refine (pairwise_children n).imp_of_mem fun {c d} left right other => ?_
      intro m first second
      apply other
      apply (mem_preorder_iff.mp first).eq_of_length (mem_preorder_iff.mp second)
      rw [ancestors_of_mem_children left, ancestors_of_mem_children right]

/-! ### Level by level -/

theorem heightOf_le_heightOfAll {s : Subtree} {ss : List Subtree} (member : s ∈ ss) :
    heightOf s ≤ heightOfAll ss := by
  induction ss with
  | nil => cases member
  | cons t ss ih =>
    rw [heightOfAll]
    rcases List.mem_cons.mp member with rfl | later
    · exact Nat.le_max_left _ _
    · exact Nat.le_trans (ih later) (Nat.le_max_right _ _)

theorem height_lt_of_mem_children {n c : Node} (step : c ∈ n.children) :
    heightOf c.self < heightOf n.self := by
  obtain ⟨i, s, found, rfl⟩ := mem_children_iff.mp step
  have lower := heightOf_le_heightOfAll (List.mem_of_getElem? found)
  cases whole : n.self with
  | mk id kind span text children =>
    rw [whole] at lower
    rw [heightOf, self]
    exact Nat.lt_succ_of_le lower

theorem eq_nil_of_height {level : List Node} (low : ∀ a ∈ level, heightOf a.self ≤ 0) :
    level = [] := by
  rw [List.eq_nil_iff_forall_not_mem]
  intro a member
  have none := low a member
  cases whole : a.self with
  | mk id kind span text children =>
    rw [whole, heightOf] at none
    omega

theorem height_le_of_mem_flatMap {k : Nat} {level : List Node}
    (enough : ∀ a ∈ level, heightOf a.self ≤ k + 1) :
    ∀ c ∈ level.flatMap children, heightOf c.self ≤ k := by
  intro c member
  obtain ⟨a, high, step⟩ := List.mem_flatMap.mp member
  have lower := height_lt_of_mem_children step
  have upper := enough a high
  omega

/-- Levels enough for the height of a level give everything below it. -/
theorem mem_levels_iff {m : Node} (k : Nat) (level : List Node)
    (enough : ∀ a ∈ level, heightOf a.self ≤ k) :
    m ∈ levels k level ↔ ∃ a ∈ level, Descends a m := by
  induction k generalizing level with
  | zero =>
    simp [eq_nil_of_height enough, levels]
  | succ k ih =>
    rw [levels, List.mem_append, ih _ (height_le_of_mem_flatMap enough)]
    constructor
    · rintro (here | ⟨c, member, way⟩)
      · exact ⟨m, here, .here⟩
      · obtain ⟨a, high, step⟩ := List.mem_flatMap.mp member
        exact ⟨a, high, (Descends.child step).trans way⟩
    · rintro ⟨a, high, way⟩
      rcases way.cases_child with rfl | ⟨c, step, rest⟩
      · exact Or.inl high
      · exact Or.inr ⟨c, List.mem_flatMap_of_mem high step, rest⟩

theorem mem_breadthFirst_iff {r n : Node} : n ∈ r.breadthFirst ↔ Descends r n := by
  rw [breadthFirst, mem_levels_iff _ _ (by simp)]
  simp

end FishNav.Node
