import FishNav.Proofs.Tree.Load
import Mathlib.Data.List.Nodup

/-!
# Ways through a tree

`Descends a n` says that a way leads from `a` down to `n`, child by child. The nodes of a tree are
those to which a way leads from the root (`mem_preorder_iff`), the nodes above `n` are those from
which a way leads to it (`Descends.of_mem_ancestors`), and two nodes without a way between them
stand below two siblings (`Descends.compare`). In a loaded tree the number of a node names it
(`eq_of_id_eq`).
-/
namespace FishNav.Node

/-! ### Children -/

theorem mem_place_iff {p m : Node} {slot : Nat} {ss : List Subtree} :
    m ∈ p.place slot ss ↔ ∃ i s, ss[i]? = some s ∧ m = .child p (slot + i) s := by
  induction ss generalizing slot with
  | nil => simp [place]
  | cons s ss ih =>
    rw [place, List.mem_cons, ih]
    constructor
    · rintro (rfl | ⟨i, t, found, rfl⟩)
      · exact ⟨0, s, rfl, rfl⟩
      · exact ⟨i + 1, t, found, by rw [Nat.add_assoc, Nat.add_comm 1 i]⟩
    · rintro ⟨i, t, found, rfl⟩
      cases i with
      | zero =>
        obtain rfl : s = t := by simpa using found
        exact Or.inl rfl
      | succ i => exact Or.inr ⟨i, t, found, by rw [Nat.add_assoc, Nat.add_comm 1 i]⟩

theorem mem_children_iff {p m : Node} :
    m ∈ p.children ↔ ∃ i s, p.self.children[i]? = some s ∧ m = .child p i s := by
  simp [children, mem_place_iff]

theorem getElem?_place (p : Node) (slot : Nat) (ss : List Subtree) (i : Nat) :
    (p.place slot ss)[i]? = ss[i]?.map (.child p (slot + i)) := by
  induction ss generalizing slot i with
  | nil => simp [place]
  | cons s ss ih =>
    cases i with
    | zero => simp [place]
    | succ i => simp [place, ih, Nat.add_assoc, Nat.add_comm 1 i]

theorem getElem?_children (p : Node) (i : Nat) :
    p.children[i]? = p.self.children[i]?.map (.child p i) := by
  simp [children, getElem?_place]

theorem length_place (p : Node) (slot : Nat) (ss : List Subtree) :
    (p.place slot ss).length = ss.length := by
  induction ss generalizing slot with
  | nil => simp [place]
  | cons s ss ih => simp [place, ih]

theorem children_eq_nil_iff {p : Node} : p.children = [] ↔ p.self.children = [] := by
  rw [← List.length_eq_zero_iff, children, length_place, List.length_eq_zero_iff]

theorem getElem?_self_children {p m : Node} {i : Nat} (found : p.children[i]? = some m) :
    p.self.children[i]? = some m.self := by
  rw [getElem?_children, Option.map_eq_some_iff] at found
  obtain ⟨s, found, rfl⟩ := found
  exact found

theorem getLast?_self_children {p m : Node} (last : p.children.getLast? = some m) :
    p.self.children.getLast? = some m.self := by
  rw [List.getLast?_eq_getElem?] at last ⊢
  have found := getElem?_self_children last
  rwa [children, length_place] at found

theorem parent?_of_mem_children {p m : Node} (member : m ∈ p.children) : m.parent? = some p := by
  obtain ⟨i, s, -, rfl⟩ := mem_children_iff.mp member
  rfl

theorem ancestors_of_mem_children {p m : Node} (member : m ∈ p.children) :
    m.ancestors = p :: p.ancestors := by
  obtain ⟨i, s, -, rfl⟩ := mem_children_iff.mp member
  rw [ancestors]

/-! ### Ways down -/

/-- A way leads from `a` down to a node. -/
inductive Descends (a : Node) : Node → Prop
  | here : Descends a a
  | down {p m : Node} (way : Descends a p) (step : m ∈ p.children) : Descends a m

namespace Descends

theorem child {p m : Node} (step : m ∈ p.children) : Descends p m := here.down step

theorem trans {a b c : Node} (first : Descends a b) (second : Descends b c) : Descends a c := by
  induction second with
  | here => exact first
  | down _ step ih => exact ih.down step

theorem eq_or_mem_ancestors {a n : Node} (way : Descends a n) : a = n ∨ a ∈ n.ancestors := by
  induction way with
  | here => exact Or.inl rfl
  | down _ step ih =>
    rw [ancestors_of_mem_children step, List.mem_cons]
    exact Or.inr ih

/-- A way is empty or starts with a child. -/
theorem cases_child {a n : Node} (way : Descends a n) :
    a = n ∨ ∃ c ∈ a.children, Descends c n := by
  induction way with
  | here => exact Or.inl rfl
  | down _ step ih =>
    rcases ih with rfl | ⟨c, member, way⟩
    · exact Or.inr ⟨_, step, here⟩
    · exact Or.inr ⟨c, member, way.down step⟩

theorem eq_of_leaf {a n : Node} (way : Descends a n) (leaf : a.children = []) : a = n := by
  rcases way.cases_child with same | ⟨c, step, -⟩
  · exact same
  · simp [leaf] at step

/-- What is above a node of a tree is in the tree and has a way down to it. -/
theorem of_mem_ancestors {s : Subtree} {a n : Node} (way : Descends (.root s) n)
    (above : a ∈ n.ancestors) : Descends (.root s) a ∧ Descends a n := by
  induction way with
  | here => simp [ancestors] at above
  | down way step ih =>
    rw [ancestors_of_mem_children step, List.mem_cons] at above
    rcases above with rfl | above
    · exact ⟨way, child step⟩
    · exact ⟨(ih above).1, (ih above).2.down step⟩

/-- The parent of a node of a tree is in the tree and has the node among its children. -/
theorem of_parent? {s : Subtree} {p n : Node} (way : Descends (.root s) n)
    (parent : n.parent? = some p) : Descends (.root s) p ∧ n ∈ p.children := by
  cases way with
  | here => cases parent
  | down way step =>
    obtain rfl := Option.some.inj ((parent?_of_mem_children step).symm.trans parent)
    exact ⟨way, step⟩

end Descends

theorem length_ancestors_lt {a n : Node} (above : a ∈ n.ancestors) :
    a.ancestors.length < n.ancestors.length := by
  induction n with
  | root s => simp [ancestors] at above
  | child p slot s ih =>
    rw [ancestors, List.mem_cons] at above
    rw [ancestors, List.length_cons]
    rcases above with rfl | above
    · exact Nat.lt_succ_self _
    · exact Nat.lt_succ_of_lt (ih above)

theorem mem_ancestors_trans {a b n : Node} (upper : a ∈ b.ancestors) (lower : b ∈ n.ancestors) :
    a ∈ n.ancestors := by
  induction n with
  | root s => simp [ancestors] at lower
  | child p slot s ih =>
    rw [ancestors, List.mem_cons] at lower ⊢
    rcases lower with rfl | lower
    · exact Or.inr upper
    · exact Or.inr (ih lower)

/-- What satisfies `p` above a node is the nearest such node or above that one. -/
theorem eq_or_above_of_findAbove? {p : Node → Bool} {n nearest g : Node}
    (found : n.findAbove? p = some nearest) (above : g ∈ n.ancestors) (holds : p g = true) :
    g = nearest ∨ g ∈ nearest.ancestors := by
  induction n with
  | root s => simp [ancestors] at above
  | child q slot s ih =>
    rw [findAbove?, ancestors, List.find?_cons] at found
    rw [ancestors, List.mem_cons] at above
    split at found
    · obtain rfl := Option.some.inj found
      exact above
    · next other =>
      rcases above with rfl | above
      · exact absurd holds (by simp [other])
      · exact ih found above

/-- Two nodes below `a`: a way leads from one to the other, or they stand below two siblings. -/
theorem Descends.compare {a m n : Node} (left : Descends a m) (right : Descends a n) :
    Descends m n ∨ Descends n m ∨
      ∃ p, Descends a p ∧ ∃ (c d : Node) (i j : Nat), i ≠ j ∧ p.children[i]? = some c ∧
        p.children[j]? = some d ∧ Descends c m ∧ Descends d n := by
  induction left with
  | here => exact Or.inl right
  | @down p m way step ih =>
    rcases ih with below | above | ⟨q, top, c, d, i, j, other, hc, hd, first, second⟩
    · rcases below.cases_child with rfl | ⟨d, member, rest⟩
      · exact Or.inr (Or.inl (child step))
      · obtain ⟨i, hi⟩ := List.mem_iff_getElem?.mp step
        obtain ⟨j, hj⟩ := List.mem_iff_getElem?.mp member
        by_cases same : i = j
        · subst same
          obtain rfl : m = d := Option.some.inj (hi.symm.trans hj)
          exact Or.inl rest
        · exact Or.inr (Or.inr ⟨p, way, m, d, i, j, same, hi, hj, here, rest⟩)
    · exact Or.inr (Or.inl (above.down step))
    · exact Or.inr (Or.inr ⟨q, top, c, d, i, j, other, hc, hd, first.down step, second⟩)

/-! ### Nodes of a tree -/

mutual

theorem mem_listing_iff (put : Subtree → Node) (s : Subtree) (self : (put s).self = s)
    (m : Node) : m ∈ listing put s ↔ Descends (put s) m := by
  cases s with
  | mk id kind span text children =>
    rw [listing, List.mem_cons, mem_listingOfAll_iff]
    constructor
    · rintro (rfl | ⟨i, s, found, way⟩)
      · exact .here
      · refine (Descends.child ?_).trans way
        rw [mem_children_iff, self]
        exact ⟨i, s, found, by rw [Nat.zero_add]⟩
    · intro way
      rcases way.cases_child with rfl | ⟨c, member, rest⟩
      · exact Or.inl rfl
      · rw [mem_children_iff, self] at member
        obtain ⟨i, s, found, rfl⟩ := member
        exact Or.inr ⟨i, s, found, by rwa [Nat.zero_add]⟩

theorem mem_listingOfAll_iff (p : Node) (slot : Nat) (ss : List Subtree) (m : Node) :
    m ∈ listingOfAll p slot ss ↔
      ∃ i s, ss[i]? = some s ∧ Descends (.child p (slot + i) s) m := by
  cases ss with
  | nil => simp [listingOfAll]
  | cons s ss =>
    rw [listingOfAll, List.mem_append, mem_listing_iff (.child p slot) s rfl,
      mem_listingOfAll_iff p (slot + 1) ss]
    constructor
    · rintro (way | ⟨i, t, found, way⟩)
      · exact ⟨0, s, rfl, way⟩
      · exact ⟨i + 1, t, found, by rwa [Nat.add_assoc, Nat.add_comm 1 i] at way⟩
    · rintro ⟨i, t, found, way⟩
      cases i with
      | zero =>
        obtain rfl : s = t := by simpa using found
        exact Or.inl way
      | succ i => exact Or.inr ⟨i, t, found, by rwa [Nat.add_assoc, Nat.add_comm 1 i]⟩

end

theorem put_self (n : Node) : n.put n.self = n := by
  cases n <;> rfl

/-- The listing has all nodes below and no others. -/
theorem mem_preorder_iff {r n : Node} : n ∈ r.preorder ↔ Descends r n := by
  rw [preorder, mem_listing_iff r.put r.self (by rw [put_self]), put_self]

mutual

/-- The numbers of the nodes of a loaded tree count them in the order of the listing. -/
theorem ids_listing (text : List Char) (put : Subtree → Node) (id : Nat) (d : Dump)
    (self : ∀ s, (put s).self = s) :
    (listing put (d.subtree text id)).map Node.id = List.range' id d.size := by
  cases d with
  | mk tag named span children =>
    rw [Dump.subtree, listing, List.map_cons, ids_listingOfAll, Dump.size, List.range'_succ]
    simp [Node.id, self]

theorem ids_listingOfAll (text : List Char) (p : Node) (slot id : Nat) (ds : List Dump) :
    (listingOfAll p slot (Dump.subtrees text id ds)).map Node.id =
      List.range' id (Dump.sizeOfAll ds) := by
  cases ds with
  | nil => simp [Dump.subtrees, listingOfAll, Dump.sizeOfAll]
  | cons d ds =>
    rw [Dump.subtrees, listingOfAll, List.map_append,
      ids_listing text (.child p slot) id d fun _ => rfl, ids_listingOfAll, Dump.sizeOfAll,
      List.range'_append_1]

end

/-- In the tree of a dump, numbers tell nodes apart. -/
theorem eq_of_id_eq {text : List Char} {d : Dump} {m n : Node}
    (left : Descends (.root (d.subtree text 0)) m) (right : Descends (.root (d.subtree text 0)) n)
    (same : m.id = n.id) : m = n := by
  rw [← mem_preorder_iff] at left right
  have ids := ids_listing text .root 0 d fun _ => rfl
  have distinct : ((Node.root (d.subtree text 0)).preorder.map Node.id).Nodup := by
    rw [preorder]
    exact ids ▸ List.nodup_range'
  exact List.inj_on_of_nodup_map distinct left right same

end FishNav.Node
