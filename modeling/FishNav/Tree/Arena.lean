import FishNav.Kind
import FishNav.Text.Mark

/-!
# Arenas

The entries of a tree under construction, in the order in which its nodes were added. They keep
three accounts of the same tree: the parent of each node, its place among the children of the
parent, and the children of each node. `Links` says that the three agree, and the changes that are
made to entries keep it: a new entry (`links_pushEntry`) and a new end (`links_moveStop`).
-/
namespace FishNav

/-- A node as the builder keeps it. -/
structure Entry where
  kind : Kind
  span : Span
  parent : Option Nat
  /-- Place among the parent's children. -/
  slot : Nat
  children : List Nat
  deriving Repr

namespace Builder

def adopt (ids : List Nat) (e : Entry) : Entry := { e with children := e.children ++ ids }

/-! ### Changes -/

/-- The entries with a node that is the last child of `parent`. A parent that does not exist counts
as none. -/
def pushEntry (es : Array Entry) (parent : Option Nat) (kind : Kind) (span : Span) : Array Entry :=
  match parent.bind fun p => es[p]?.map fun e => (p, e) with
  | some (p, e) =>
    (es.setIfInBounds p (adopt [es.size] e)).push ⟨kind, span, some p, e.children.length, []⟩
  | none => es.push ⟨kind, span, none, 0, []⟩

/-- The entries with another end of a node; other numbers name no node and are ignored. -/
def moveStop (es : Array Entry) (node : Nat) (stop : Mark) : Array Entry :=
  es.modify node fun e => { e with span := ⟨e.span.start, stop⟩ }

/-! ### What a change does -/

theorem pushEntry_none (es : Array Entry) (kind : Kind) (span : Span) :
    (pushEntry es none kind span).toList = es.toList ++ [⟨kind, span, none, 0, []⟩] := by
  simp [pushEntry]

theorem pushEntry_some {es : Array Entry} {p : Nat} {e : Entry} (parent : es.toList[p]? = some e)
    (kind : Kind) (span : Span) :
    (pushEntry es (some p) kind span).toList =
      es.toList.modify p (adopt [es.size]) ++ [⟨kind, span, some p, e.children.length, []⟩] := by
  have found : es[p]? = some e := by simpa using parent
  have linked : es.toList.set p (adopt [es.size] e) = es.toList.modify p (adopt [es.size]) := by
    apply List.ext_getElem?
    intro i
    rw [List.getElem?_set, List.getElem?_modify]
    by_cases same : p = i
    · subst same
      have inside := (List.getElem?_eq_some_iff.mp parent).1
      rw [if_pos rfl, if_pos inside, parent]
      simp
    · simp [same]
  simp only [pushEntry, found, Option.bind_some, Option.map_some, Array.toList_push,
    Array.toList_setIfInBounds]
  rw [← linked]

/-- A new entry comes last, and its parent gets a child. -/
def attach (es : List Entry) (e : Entry) : List Entry :=
  (match e.parent with
    | none => es
    | some p => es.modify p (adopt [es.length])) ++ [e]

/-- The entries after an attachment: the new one comes last, and its parent has one child more. -/
theorem getElem?_attach {es : List Entry} {e f : Entry} {i : Nat} :
    (attach es e)[i]? = some f ↔
      i = es.length ∧ f = e ∨
        ∃ g, es[i]? = some g ∧ f = if e.parent = some i then adopt [es.length] g else g := by
  have length : (attach es e).length = es.length + 1 := by
    unfold attach
    split <;> simp
  have last : (attach es e)[es.length]? = some e := by
    unfold attach
    split <;> simp
  rcases Nat.lt_trichotomy i es.length with inside | rfl | beyond
  · have old : (attach es e)[i]? =
        es[i]?.map fun g => if e.parent = some i then adopt [es.length] g else g := by
      unfold attach
      cases e.parent with
      | none => simp [List.getElem?_append_left inside]
      | some p =>
        rw [List.getElem?_append_left (by simpa using inside), List.getElem?_modify]
        simp
    rw [old, Option.map_eq_some_iff]
    constructor
    · rintro ⟨g, found, rfl⟩
      exact Or.inr ⟨g, found, rfl⟩
    · rintro (⟨rfl, -⟩ | ⟨g, found, rfl⟩)
      · omega
      · exact ⟨g, found, rfl⟩
  · rw [last]
    constructor
    · intro same
      exact Or.inl ⟨rfl, (Option.some.inj same).symm⟩
    · rintro (⟨-, rfl⟩ | ⟨g, found, -⟩)
      · rfl
      · have := (List.getElem?_eq_some_iff.mp found).1
        omega
  · constructor
    · intro found
      have := (List.getElem?_eq_some_iff.mp found).1
      omega
    · rintro (⟨rfl, -⟩ | ⟨g, found, -⟩)
      · omega
      · have := (List.getElem?_eq_some_iff.mp found).1
        omega

/-- A parent is known if it is there; the new node goes behind the children it has. -/
theorem pushEntry_eq_attach (es : Array Entry) (parent : Option Nat) (kind : Kind) (span : Span) :
    ∃ e : Entry, (pushEntry es parent kind span).toList = attach es.toList e ∧
      e.kind = kind ∧ e.span = span ∧ e.parent = parent.filter (· < es.size) ∧ e.children = [] ∧
      ∀ p, e.parent = some p → ∃ q, es.toList[p]? = some q ∧ e.slot = q.children.length := by
  cases known : parent.bind fun p => es.toList[p]?.map fun q => (p, q) with
  | none =>
    have same : pushEntry es parent kind span = pushEntry es none kind span := by
      simp only [Array.getElem?_toList] at known
      rw [pushEntry, known]
      rfl
    have missing : parent.filter (· < es.size) = none := by
      rw [Option.filter_eq_none_iff]
      rintro p rfl
      rw [Option.bind_some, Option.map_eq_none_iff, List.getElem?_eq_none_iff,
        Array.length_toList] at known
      rw [decide_eq_true_eq]
      omega
    refine ⟨⟨kind, span, none, 0, []⟩, ?_, rfl, rfl, missing.symm, rfl, ?_⟩
    · rw [same, pushEntry_none]
      rfl
    · intro p above
      cases above
  | some found =>
    obtain ⟨p, rfl, found⟩ := Option.bind_eq_some_iff.mp known
    obtain ⟨q, there, rfl⟩ := Option.map_eq_some_iff.mp found
    have inside : p < es.size := (List.getElem?_eq_some_iff.mp there).1
    refine ⟨⟨kind, span, some p, q.children.length, []⟩, ?_, rfl, rfl, ?_, rfl, ?_⟩
    · rw [pushEntry_some there]
      rfl
    · simp [Option.filter_some, inside]
    · intro p' same
      obtain rfl : p = p' := Option.some.inj same
      exact ⟨q, there, rfl⟩

/-! ### Links -/

/-- Parents, places and children of some entries tell the same tree. -/
structure Links (es : List Entry) : Prop where
  parent_lt : ∀ {i p : Nat} {e : Entry}, es[i]? = some e → e.parent = some p → p < i
  place : ∀ {i p : Nat} {e q : Entry}, es[i]? = some e → e.parent = some p → es[p]? = some q →
    q.children[e.slot]? = some i
  child : ∀ {p c : Nat} {q : Entry}, es[p]? = some q → c ∈ q.children →
    ∃ e, es[c]? = some e ∧ e.parent = some p
  increasing : ∀ {p : Nat} {q : Entry}, es[p]? = some q → q.children.Pairwise (· < ·)

namespace Links

variable {es : List Entry}

theorem nil : Links [] := by
  constructor <;> simp

theorem lt_length (links : Links es) {p c : Nat} {q : Entry} (found : es[p]? = some q)
    (member : c ∈ q.children) : c < es.length := by
  obtain ⟨e, there, -⟩ := links.child found member
  exact (List.getElem?_eq_some_iff.mp there).1

/-- Attaching a node without children to a known place keeps the links. -/
theorem attach (links : Links es) {e : Entry} (leaf : e.children = [])
    (known : ∀ p, e.parent = some p → ∃ q, es[p]? = some q ∧ e.slot = q.children.length) :
    Links (attach es e) := by
  constructor
  case parent_lt =>
    intro i p f found above
    rcases getElem?_attach.mp found with ⟨rfl, rfl⟩ | ⟨g, old, rfl⟩
    · obtain ⟨q, there, -⟩ := known p above
      exact (List.getElem?_eq_some_iff.mp there).1
    · apply links.parent_lt old
      rw [← above]
      split <;> rfl
  case place =>
    intro i p f q found above upper
    rcases getElem?_attach.mp found with ⟨rfl, rfl⟩ | ⟨g, old, rfl⟩
    · -- the new node stands behind the children that its parent had
      obtain ⟨r, there, slot⟩ := known p above
      have inside := (List.getElem?_eq_some_iff.mp there).1
      rcases getElem?_attach.mp upper with ⟨rfl, -⟩ | ⟨r', there', rfl⟩
      · omega
      · obtain rfl : r = r' := Option.some.inj (there.symm.trans there')
        simp [above, adopt, slot]
    · have parent : g.parent = some p := by
        rw [← above]
        split <;> rfl
      have slot : (if e.parent = some i then adopt [es.length] g else g).slot = g.slot := by
        split <;> rfl
      have order := links.parent_lt old parent
      have inside := (List.getElem?_eq_some_iff.mp old).1
      rcases getElem?_attach.mp upper with ⟨rfl, -⟩ | ⟨r, there, rfl⟩
      · omega
      · have here := links.place old parent there
        have bound := (List.getElem?_eq_some_iff.mp here).1
        rw [slot]
        split
        · rw [adopt, List.getElem?_append_left bound, here]
        · exact here
  case child =>
    intro p c q found member
    rcases getElem?_attach.mp found with ⟨rfl, rfl⟩ | ⟨g, old, rfl⟩
    · rw [leaf] at member
      cases member
    · have cases : c ∈ g.children ∨ e.parent = some p ∧ c = es.length := by
        split at member
        · next parent =>
          rcases List.mem_append.mp member with before | new
          · exact Or.inl before
          · exact Or.inr ⟨parent, List.mem_singleton.mp new⟩
        · exact Or.inl member
      rcases cases with before | ⟨parent, rfl⟩
      · obtain ⟨f, there, above⟩ := links.child old before
        refine ⟨_, getElem?_attach.mpr (Or.inr ⟨f, there, rfl⟩), ?_⟩
        rw [← above]
        split <;> rfl
      · exact ⟨e, getElem?_attach.mpr (Or.inl ⟨rfl, rfl⟩), parent⟩
  case increasing =>
    intro p q found
    rcases getElem?_attach.mp found with ⟨rfl, rfl⟩ | ⟨g, old, rfl⟩
    · rw [leaf]
      exact .nil
    · split
      · refine List.pairwise_append.mpr ⟨links.increasing old, List.pairwise_singleton _ _, ?_⟩
        intro c member new last
        rw [List.mem_singleton.mp last]
        exact links.lt_length old member
      · exact links.increasing old

/-- Links do not depend on what else an entry says. -/
theorem modify (links : Links es) (i : Nat) {f : Entry → Entry}
    (parent : ∀ e, (f e).parent = e.parent) (slot : ∀ e, (f e).slot = e.slot)
    (children : ∀ e, (f e).children = e.children) :
    Links (es.modify i f) := by
  have back : ∀ {j : Nat} {e : Entry}, (es.modify i f)[j]? = some e →
      ∃ g, es[j]? = some g ∧ e.parent = g.parent ∧ e.slot = g.slot ∧ e.children = g.children := by
    intro j e found
    rw [List.getElem?_modify, Option.map_eq_map, Option.map_eq_some_iff] at found
    obtain ⟨g, old, rfl⟩ := found
    refine ⟨g, old, ?_⟩
    split
    · exact ⟨parent g, slot g, children g⟩
    · exact ⟨rfl, rfl, rfl⟩
  constructor
  case parent_lt =>
    intro j p e found above
    obtain ⟨g, old, sameParent, -, -⟩ := back found
    exact links.parent_lt old (sameParent ▸ above)
  case place =>
    intro j p e q found above upper
    obtain ⟨g, old, sameParent, sameSlot, -⟩ := back found
    obtain ⟨r, there, -, -, sameChildren⟩ := back upper
    rw [sameChildren, sameSlot]
    exact links.place old (sameParent ▸ above) there
  case child =>
    intro p c q found member
    obtain ⟨r, there, -, -, sameChildren⟩ := back found
    obtain ⟨e, old, above⟩ := links.child there (sameChildren ▸ member)
    refine ⟨if i = c then f e else e, by rw [List.getElem?_modify, old]; rfl, ?_⟩
    rw [← above]
    split
    · exact parent e
    · rfl
  case increasing =>
    intro p q found
    obtain ⟨r, there, -, -, sameChildren⟩ := back found
    rw [sameChildren]
    exact links.increasing there

end Links

/-- Adding a node keeps the links, whichever parent is named. -/
theorem links_pushEntry {es : Array Entry} (links : Links es.toList) (parent : Option Nat)
    (kind : Kind) (span : Span) : Links (pushEntry es parent kind span).toList := by
  obtain ⟨e, entries, -, -, -, leaf, known⟩ := pushEntry_eq_attach es parent kind span
  rw [entries]
  exact links.attach leaf known

theorem links_moveStop {es : Array Entry} (links : Links es.toList) (node : Nat) (stop : Mark) :
    Links (moveStop es node stop).toList := by
  rw [moveStop, Array.toList_modify]
  exact links.modify node (fun _ => rfl) (fun _ => rfl) (fun _ => rfl)

end Builder

end FishNav
