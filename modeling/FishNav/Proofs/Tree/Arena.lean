import FishNav.Proofs.Tree.Load
import Mathlib.Data.List.Nodup

/-!
# Links between entries

A builder carries the agreement of its three accounts (`Builder.Links`) from one change to the next,
whatever parents are named on the way, and hands it on to the tree. A tree has no fault besides, so
only its first node has no parent: parents and children then tell one tree (`Tree.linked`).
-/
namespace FishNav

namespace Builder

/-- A change to a builder. -/
inductive Step where
  | push (parent : Option Nat) (kind : Kind) (span : Span)
  | setStop (node : Nat) (stop : Mark)
  deriving Repr

def apply (b : Builder) : Step → Builder
  | .push parent kind span => b.push parent kind span
  | .setStop node stop => b.setStop node stop

/-- The builder after some changes, one after the other. -/
def run (source : String) (steps : List Step) : Builder := steps.foldl apply (.empty source)

end Builder

namespace Tree

/-- The links of a whole tree: only node 0 has no parent, parents come before their children, and a
node is named by its parent and by no other node, once, at its place. -/
structure Linked (t : Tree) : Prop where
  parent : ∀ {i : Nat} {e : Entry}, t.entries[i]? = some e → i ≠ 0 →
    ∃ p, e.parent = some p ∧ p < i
  top : ∀ {e : Entry}, t.entries[0]? = some e → e.parent = none
  mem_children_iff : ∀ {i p : Nat} {e q : Entry}, t.entries[i]? = some e →
    t.entries[p]? = some q → (i ∈ q.children ↔ e.parent = some p)
  once : ∀ {i p : Nat} {e q : Entry}, t.entries[i]? = some e → t.entries[p]? = some q →
    e.parent = some p → q.children.count i = 1 ∧ q.children[e.slot]? = some i
  known : ∀ {p c : Nat} {q : Entry}, t.entries[p]? = some q → c ∈ q.children → c < t.size
  increasing : ∀ {p : Nat} {q : Entry}, t.entries[p]? = some q → q.children.Pairwise (· < ·)

/-- Only the first node has no parent: a later one without would be a fault. -/
theorem exists_parent {t : Tree} {i : Nat} {e : Entry} (found : t.entries.toList[i]? = some e)
    (later : i ≠ 0) : ∃ p, e.parent = some p := by
  have faultless := Builder.faultIn?_eq_none_iff.mp t.faultless i e found
  have parent := (Builder.faultOf?_eq_none_iff.mp faultless).2
  cases above : e.parent with
  | none =>
    rw [above] at parent
    exact absurd parent later
  | some p => exact ⟨p, rfl⟩

/-- Every tree is linked, since trees are made by builders and checked. -/
theorem linked (t : Tree) : t.Linked := by
  have links := t.links
  have same : ∀ i : Nat, t.entries.toList[i]? = t.entries[i]? := fun i => Array.getElem?_toList
  constructor
  case parent =>
    intro i e found later
    obtain ⟨p, parent⟩ := exists_parent ((same i).trans found) later
    exact ⟨p, parent, links.parent_lt ((same i).trans found) parent⟩
  case top =>
    intro e found
    cases parent : e.parent with
    | none => rfl
    | some p => exact absurd (links.parent_lt ((same 0).trans found) parent) (Nat.not_lt_zero p)
  case mem_children_iff =>
    intro i p e q found upper
    constructor
    · intro member
      obtain ⟨f, there, parent⟩ := links.child ((same p).trans upper) member
      obtain rfl : e = f := Option.some.inj (found.symm.trans ((same i).symm.trans there))
      exact parent
    · intro parent
      exact List.mem_of_getElem?
        (links.place ((same i).trans found) parent ((same p).trans upper))
  case once =>
    intro i p e q found upper parent
    have place := links.place ((same i).trans found) parent ((same p).trans upper)
    have distinct : q.children.Nodup := (links.increasing ((same p).trans upper)).imp Nat.ne_of_lt
    exact ⟨List.count_eq_one_of_mem distinct (List.mem_of_getElem? place), place⟩
  case known =>
    intro p c q found member
    have bound := links.lt_length ((same p).trans found) member
    rwa [Array.length_toList] at bound
  case increasing =>
    intro p q found
    exact links.increasing ((same p).trans found)

end Tree

end FishNav
