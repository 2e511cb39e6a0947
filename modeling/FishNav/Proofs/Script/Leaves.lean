import FishNav.Proofs.Lines
import FishNav.Proofs.Script.Lookup

/-!
# The leaf at a cursor

A cursor may stand behind what it means, or behind the end of its line. The search goes back from
there column by column and takes the first leaf that it meets (`leafBefore?_cases`). The leaves of a
script stand one behind the other, so of all leaves on the line up to the cursor this is the one
that starts last, whether it starts on the line or above it; without one the deepest node at the
cursor is taken (`atCursor?_latest`).
-/
namespace FishNav.Script

open Node (Descends)

variable {source : String} {n m : Node} {p q : Position}

/-- `n` is a leaf of the script that has the position `p`. -/
structure LeafAt (source : String) (p : Position) (n : Node) : Prop where
  member : n ∈ (tree source).nodes
  leaf : n.children = []
  has : n.Has p

/-- `n` is a leaf that has a position on the line of `p`, at most at the column of `p` and at most
at the end of the line. A line that the text does not have ends where it starts. -/
def LeafBefore (source : String) (p : Position) (n : Node) : Prop :=
  ∃ column ≤ min p.column (Text.byteLength ((Text.split '\n' source.toList)[p.line]?.getD [])),
    LeafAt source ⟨p.line, column⟩ n

namespace LeafAt

theorem inside (here : LeafAt source p n) : Descends (root source) n := mem_nodes_iff.mp here.member

theorem found (here : LeafAt source p n) : (root source).at? p = some n :=
  at?_of_leaf here.inside here.leaf here.has

/-- Only one leaf has a position. -/
theorem unique (left : LeafAt source p m) (right : LeafAt source p n) : m = n :=
  Option.some.inj (left.found.symm.trans right.found)

/-- Of two leaves, the one with the earlier position ends where the other one starts, or before. -/
theorem stop_le_start (first : LeafAt source p m) (second : LeafAt source q n) (order : p < q)
    (other : m ≠ n) : m.stop ≤ n.start := by
  rcases apart first.inside second.inside with below | above | before | behind
  · exact absurd (below.eq_of_leaf first.leaf) other
  · exact absurd (above.eq_of_leaf second.leaf).symm other
  · exact before
  · have back : q < p := lt_of_lt_of_le second.has.2 (le_trans behind first.has.1)
    exact absurd order (not_lt_of_gt back)

end LeafAt

/-! ### Going back -/

/-- In a script with a statement the node at a position is a leaf just when a leaf has the
position: the program, which has its end too, is none. -/
theorem leafAt?_eq_some_iff (statements : (root source).children ≠ []) :
    Node.leafBefore?.leafAt? (root source) p = some n ↔ LeafAt source p n := by
  unfold Node.leafBefore?.leafAt?
  rw [Option.filter_eq_some_iff, List.isEmpty_iff, ← Node.children_eq_nil_iff]
  constructor
  · rintro ⟨found, leaf⟩
    obtain ⟨way, wanted, -⟩ := Node.at?_spec found
    rcases wanted with rfl | ⟨start, stop⟩
    · exact absurd leaf statements
    · exact ⟨mem_nodes_iff.mpr way, leaf, not_lt.mp start, stop⟩
  · intro here
    exact ⟨here.found, here.leaf⟩

theorem leafAt?_eq_none_iff (statements : (root source).children ≠ []) :
    Node.leafBefore?.leafAt? (root source) p = none ↔ ∀ n, ¬ LeafAt source p n := by
  rw [Option.eq_none_iff_forall_ne_some]
  exact forall_congr' fun n => not_congr (leafAt?_eq_some_iff statements)

/-- Going back from a column, the first leaf is taken that has one of the positions. -/
theorem leafBefore?_cases (statements : (root source).children ≠ []) (line column : Nat) :
    (∃ n, ∃ here ≤ column, LeafAt source ⟨line, here⟩ n ∧
        (∀ later m, here < later → later ≤ column → ¬ LeafAt source ⟨line, later⟩ m) ∧
        (root source).leafBefore? line column = some n) ∨
      (∀ here ≤ column, ∀ n, ¬ LeafAt source ⟨line, here⟩ n) ∧
        (root source).leafBefore? line column = none := by
  induction column with
  | zero =>
    unfold Node.leafBefore?
    cases found : Node.leafBefore?.leafAt? (root source) ⟨line, 0⟩ with
    | some n =>
      have leaf := (leafAt?_eq_some_iff statements).mp found
      exact Or.inl ⟨n, 0, Nat.le_refl 0, leaf, by omega, rfl⟩
    | none =>
      have free := (leafAt?_eq_none_iff statements).mp found
      refine Or.inr ⟨fun here bound n => ?_, rfl⟩
      obtain rfl := Nat.le_zero.mp bound
      exact free n
  | succ column ih =>
    unfold Node.leafBefore?
    cases found : Node.leafBefore?.leafAt? (root source) ⟨line, column + 1⟩ with
    | some n =>
      have leaf := (leafAt?_eq_some_iff statements).mp found
      exact Or.inl ⟨n, column + 1, Nat.le_refl _, leaf, by omega, rfl⟩
    | none =>
      -- what holds up to `column` holds one column further, where there is no leaf
      have free := (leafAt?_eq_none_iff statements).mp found
      rcases ih with ⟨n, here, low, leaf, last, taken⟩ | ⟨nothing, none⟩
      · refine Or.inl ⟨n, here, Nat.le_succ_of_le low, leaf, fun later m high bound => ?_, taken⟩
        rcases Nat.lt_or_eq_of_le bound with lower | rfl
        · exact last later m high (Nat.le_of_lt_succ lower)
        · exact free m
      · refine Or.inr ⟨fun here bound n => ?_, none⟩
        rcases Nat.lt_or_eq_of_le bound with lower | rfl
        · exact nothing here (Nat.le_of_lt_succ lower) n
        · exact free n

/-! ### What a cursor means -/

/-- A cursor in a script with a statement means the leaf that starts last among those that have a
position on its line up to the cursor; if there is none, the deepest node at the cursor. -/
theorem atCursor?_latest (source : String) (r : Node) (p : Position)
    (top : (tree source).root? = some r) (statements : r.children ≠ []) :
    (∃ n, LeafBefore source p n ∧
        (∀ m, LeafBefore source p m → m ≠ n → m.start < n.start) ∧
        r.atCursor? (tree source).source.toList p = some n) ∨
      (∀ n, ¬ LeafBefore source p n) ∧
        r.atCursor? (tree source).source.toList p = r.at? p := by
  obtain rfl : root source = r := Option.some.inj ((root?_tree source).symm.trans top)
  have text : (tree source).source = source := (TreeDump.root?_of_load (load_dump source)).1
  rw [text]
  unfold Node.atCursor?
  rw [Text.lineLength_eq]
  rcases leafBefore?_cases statements p.line (min p.column
      (Text.byteLength ((Text.split '\n' source.toList)[p.line]?.getD []))) with
    ⟨n, here, low, leaf, last, taken⟩ | ⟨nothing, none⟩
  · refine Or.inl ⟨n, ⟨here, low, leaf⟩, ?_, by rw [taken]⟩
    rintro m ⟨there, bound, leaf'⟩ other
    rcases Nat.lt_trichotomy there here with before | rfl | behind
    · have order : (⟨p.line, there⟩ : Position) < ⟨p.line, here⟩ := Or.inr ⟨rfl, before⟩
      have ends := leaf'.stop_le_start leaf order other
      exact lt_of_lt_of_le (lt_of_le_of_lt leaf'.has.1 leaf'.has.2) ends
    · exact absurd (leaf'.unique leaf) other
    · exact absurd leaf' (last there m behind bound)
  · refine Or.inr ⟨?_, by rw [none]⟩
    rintro n ⟨here, low, leaf⟩
    exact nothing here low n leaf

/-- A cursor far behind the blanks at the end of the second line means the string that starts on the
first one. -/
theorem atCursor?_latest_string :
    ∃ r n, (tree "echo 'é\nb'  \n").root? = some r ∧ r.children ≠ [] ∧
      LeafBefore "echo 'é\nb'  \n" ⟨1, 99⟩ n ∧ n.kind = .singleQuoteString ∧
      n.start = ⟨0, 5⟩ ∧
      r.atCursor? (tree "echo 'é\nb'  \n").source.toList ⟨1, 99⟩ = some n := by
  have statements : (root "echo 'é\nb'  \n").children ≠ [] := by
    rw [Ne, ← List.isEmpty_iff]
    decide +kernel
  have string : ((root "echo 'é\nb'  \n").atCursor? (tree "echo 'é\nb'  \n").source.toList
      ⟨1, 99⟩).any (fun n => n.kind == .singleQuoteString && n.start == ⟨0, 5⟩) = true := by
    decide +kernel
  have other : ((root "echo 'é\nb'  \n").at? ⟨1, 99⟩).all
      (·.kind != .singleQuoteString) = true := by
    decide +kernel
  simp only [Option.any_eq_true, Bool.and_eq_true, beq_iff_eq] at string
  obtain ⟨n, found, kind, start⟩ := string
  rcases atCursor?_latest _ _ ⟨1, 99⟩ (root?_tree _) statements with
    ⟨m, before, -, taken⟩ | ⟨-, deepest⟩
  · obtain rfl := Option.some.inj (taken.symm.trans found)
    exact ⟨_, m, root?_tree _, statements, before, kind, start, found⟩
  · rw [deepest] at found
    simp [found, kind] at other

end FishNav.Script
