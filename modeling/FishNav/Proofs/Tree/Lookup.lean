import FishNav.Proofs.Tree.Walks
import FishNav.Tree.Lookup

/-!
# Looking nodes up

Going down from a node ends below it at a node that is wanted, unless it stays at once, and where no
child lets it go on (`descend_spec`). So the node at a range is the last one on the way that takes
the range in (`atRange?_spec`), and the node at a position is one that has the position and whose
children up to the position end before it (`at?_spec`).
-/
namespace FishNav.Node

theorem descendAmong_eq (stops want : Subtree → Bool) (p : Node) (slot : Nat) (ss : List Subtree) :
    descendAmong stops want p slot ss =
      ((p.place slot ss).find? fun c => stops c.self || want c.self).bind fun c =>
        if stops c.self then none else some (descend stops want c.put c.self) := by
  induction ss generalizing slot with
  | nil => rw [descendAmong, place, List.find?_nil, Option.bind_none]
  | cons s ss ih =>
    rw [descendAmong, place, List.find?_cons, ih]
    by_cases stop : stops s = true
    · simp [self, stop]
    · by_cases go : want s = true
      · simp [self, stop, go]
        rfl
      · simp [self, stop, go]

theorem descend_eq (stops want : Subtree → Bool) (n : Node) :
    descend stops want n.put n.self =
      ((n.children.find? fun c => stops c.self || want c.self).bind fun c =>
        if stops c.self then none else some (descend stops want c.put c.self)).getD n := by
  have opened : ∀ (put : Subtree → Node) (s : Subtree), (put s).self = s →
      descend stops want put s =
        (descendAmong stops want (put s) 0 (put s).self.children).getD (put s) := by
    intro put s self
    rw [self]
    cases s with
    | mk id kind span text children => rw [descend]
  rw [opened n.put n.self (by rw [put_self]), put_self, descendAmong_eq, children]

/-- Where going down ends: the first child that counts, if there is one, stops it. -/
theorem descend_spec (stops want : Subtree → Bool) (n : Node) :
    Descends n (descend stops want n.put n.self) ∧
      (descend stops want n.put n.self = n ∨
        stops (descend stops want n.put n.self).self = false ∧
          want (descend stops want n.put n.self).self = true) ∧
      ∀ c, ((descend stops want n.put n.self).children.find? fun c =>
        stops c.self || want c.self) = some c → stops c.self = true := by
  induction n using induction_children with
  | step n ih =>
    rw [descend_eq]
    cases found : n.children.find? fun c => stops c.self || want c.self with
    | none =>
      rw [Option.bind_none, Option.getD_none]
      exact ⟨.here, Or.inl rfl, by simp [found]⟩
    | some c =>
      have step := List.mem_of_find?_eq_some found
      have counts := List.find?_some found
      rw [Option.bind_some]
      by_cases stop : stops c.self = true
      · rw [if_pos stop, Option.getD_none]
        refine ⟨.here, Or.inl rfl, fun d first => ?_⟩
        obtain rfl := Option.some.inj (found.symm.trans first)
        exact stop
      · rw [if_neg stop, Option.getD_some]
        obtain ⟨way, wanted, last⟩ := ih c step
        refine ⟨(Descends.child step).trans way, Or.inr ?_, last⟩
        rcases wanted with same | wanted
        · rw [same]
          simpa [stop] using counts
        · exact wanted

theorem covers_iff {n : Node} {range : Range} :
    n.self.covers range = true ↔ n.start ≤ range.start ∧ range.stop ≤ n.stop := by
  simp [Subtree.covers, start, stop, span]

/-- The node at a range takes it in, and none of its children does. -/
theorem atRange?_spec {r m : Node} {range : Range} (found : r.atRange? range = some m) :
    Descends r m ∧ m.self.covers range = true ∧
      ∀ c ∈ m.children, c.self.covers range = false := by
  rw [atRange?] at found
  split at found
  · next covers =>
    obtain ⟨way, wanted, last⟩ := descend_spec (fun _ => false) (·.covers range) r
    rw [Option.some.inj found] at way wanted last
    refine ⟨way, ?_, fun c step => ?_⟩
    · rcases wanted with rfl | ⟨-, wanted⟩
      · exact covers
      · exact wanted
    · refine Bool.eq_false_iff.mpr fun wanted => ?_
      obtain ⟨d, first⟩ := Option.isSome_iff_exists.mp
        (List.find?_isSome.mpr ⟨c, step, wanted⟩ :
          (m.children.find? fun c => false || c.self.covers range).isSome = true)
      cases last d first
  · cases found

/-- Only positions outside of the root find nothing. -/
theorem at?_eq_none_iff {r : Node} {p : Position} :
    r.at? p = none ↔ p < r.start ∨ r.stop < p := by
  unfold at?
  split <;> simp [*]

/-- The node at a position has it, unless it is the root, and the first of its children that does
not end before the position starts behind it. -/
theorem at?_spec {r m : Node} {p : Position} (found : r.at? p = some m) :
    Descends r m ∧ (m = r ∨ ¬ p < m.start ∧ p < m.stop) ∧
      ∀ c, (m.children.find? fun c => decide (p < c.start) || decide (p < c.stop)) = some c →
        p < c.start := by
  unfold at? at found
  split at found
  · cases found
  · obtain ⟨way, wanted, last⟩ := descend_spec (fun s => decide (p < s.span.start.position))
      (fun s => decide (p < s.span.stop.position)) r
    rw [Option.some.inj found] at way wanted last
    simp only [decide_eq_true_eq, decide_eq_false_iff_not] at wanted
    exact ⟨way, wanted, fun c first => of_decide_eq_true (last c first)⟩

end FishNav.Node
