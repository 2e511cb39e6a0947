import FishNav.Proofs.Tree.Nodes

/-!
# Reading a tree back

A dump can be loaded without recursion, from a stack on which the nodes wait that are still to be
added, each with the number of its parent: the children of the node that was added last wait in
front of all others. What is on the stack is added as if each dump on it were added as a whole, one
after the other (`Builder.drain_cons`), so the stack gives the same tree (`load_eq_drain`).

The tree that comes out is the dump again. Going down from node 0 along the lists of children meets
the nodes of the dump, with their kinds and spans, and the numbers met on the way count up from 0
(`load_reads`).
-/
namespace FishNav

/-! ### Loading from a stack -/

namespace Builder

/-- Dumps that wait to be added under the same parent. -/
def waitUnder (parent : Option Nat) (ds : List Dump) : List (Option Nat × Dump) :=
  ds.map fun d => (parent, d)

/-- The number of nodes that a stack will add. -/
def pending : List (Option Nat × Dump) → Nat
  | [] => 0
  | (_, d) :: waiting => d.size + pending waiting

theorem pending_append (front back : List (Option Nat × Dump)) :
    pending (front ++ back) = pending front + pending back := by
  induction front with
  | nil => simp [pending]
  | cons entry front ih => simp [pending, ih, Nat.add_assoc]

theorem pending_waitUnder (parent : Option Nat) (ds : List Dump) :
    pending (waitUnder parent ds) = Dump.sizeOfAll ds := by
  unfold waitUnder
  induction ds with
  | nil => simp [pending, Dump.sizeOfAll]
  | cons d ds ih => simp [pending, Dump.sizeOfAll, ih]

/-- Adds the node on top of the stack and puts its children there, until the stack is empty. -/
def drain (b : Builder) : List (Option Nat × Dump) → Builder
  | [] => b
  | (parent, ⟨tag, named, span, children⟩) :: waiting =>
    drain (b.push parent (Kind.ofTag tag named) span)
      (waitUnder (some b.size) children ++ waiting)
termination_by waiting => pending waiting
decreasing_by
  rw [pending_append, pending_waitUnder, pending, Dump.size]
  omega

mutual

/-- The dump on top of the stack is added as a whole before anything below it. -/
theorem drain_cons (b : Builder) (parent : Option Nat) (d : Dump)
    (waiting : List (Option Nat × Dump)) :
    drain b ((parent, d) :: waiting) = drain (pushDump parent b d) waiting := by
  cases d with
  | mk tag named span children => rw [drain, drain_siblings, pushDump]

theorem drain_siblings (b : Builder) (parent : Option Nat) (ds : List Dump)
    (waiting : List (Option Nat × Dump)) :
    drain b (waitUnder parent ds ++ waiting) = drain (pushDumps parent b ds) waiting := by
  cases ds with
  | nil => rw [waitUnder, List.map_nil, List.nil_append, pushDumps]
  | cons d ds =>
    rw [waitUnder, List.map_cons, List.cons_append, drain_cons, ← waitUnder, drain_siblings,
      pushDumps]

end

end Builder

/-- The recursion adds nodes in the order of the loop with a stack. -/
theorem TreeDump.load_eq_drain (d : TreeDump) :
    d.load = (Builder.drain (.empty d.source) [(none, d.root)]).finish := by
  rw [load, Builder.drain_cons, Builder.drain]

/-! ### Reading the arena -/

namespace Tree

mutual

/-- Node `id`, read along the lists of children, is the dump `d`; `ids` are the numbers of the node
and of the nodes below it, in the order in which they are met. -/
inductive Reads (t : Tree) : (id : Nat) → (d : Dump) → (ids : List Nat) → Prop
  | node {id : Nat} {e : Entry} {d : Dump} {ids : List Nat} (found : t.entries[id]? = some e)
      (kind : e.kind = Kind.ofTag d.tag d.named) (span : e.span = d.span)
      (below : ReadsAll t e.children d.children ids) : Reads t id d (id :: ids)

/-- The same for a list of children and a list of dumps. -/
inductive ReadsAll (t : Tree) : (children : List Nat) → (ds : List Dump) → (ids : List Nat) → Prop
  | nil : ReadsAll t [] [] []
  | cons {id : Nat} {children : List Nat} {d : Dump} {ds : List Dump} {first more : List Nat}
      (head : Reads t id d first) (tail : ReadsAll t children ds more) :
      ReadsAll t (id :: children) (d :: ds) (first ++ more)

end

mutual

/-- Where the entries of a dump stand in the arena, the dump is read back. -/
theorem reads_entries {t : Tree} (before after : List Entry) (parent : Option Nat) (slot : Nat)
    (d : Dump) (split : t.entries.toList = before ++ d.entries parent slot before.length ++ after) :
    t.Reads before.length d (List.range' before.length d.size) := by
  cases d with
  | mk tag named span children =>
    rw [Dump.entries] at split
    have found : t.entries[before.length]? = some ⟨Kind.ofTag tag named, span, parent, slot,
        Dump.ids (before.length + 1) children⟩ := by
      rw [← Array.getElem?_toList, split]
      simp
    have below := readsAll_entries (before ++ [⟨Kind.ofTag tag named, span, parent, slot,
      Dump.ids (before.length + 1) children⟩]) after before.length 0 children
      (by rw [split, List.length_append]; simp)
    rw [List.length_append, List.length_singleton] at below
    rw [Dump.size, List.range'_succ]
    exact .node found rfl rfl below

theorem readsAll_entries {t : Tree} (before after : List Entry) (parent slot : Nat)
    (ds : List Dump)
    (split : t.entries.toList =
      before ++ Dump.entriesOfAll parent slot before.length ds ++ after) :
    t.ReadsAll (Dump.ids before.length ds) ds
      (List.range' before.length (Dump.sizeOfAll ds)) := by
  cases ds with
  | nil =>
    rw [Dump.ids, Dump.sizeOfAll]
    exact .nil
  | cons d ds =>
    rw [Dump.entriesOfAll] at split
    have head := reads_entries before
      (Dump.entriesOfAll parent (slot + 1) (before.length + d.size) ds ++ after) (some parent)
      slot d (by rw [split]; simp)
    have length : (before ++ d.entries (some parent) slot before.length).length =
        before.length + d.size := by
      rw [List.length_append, Dump.length_entries]
    have tail := readsAll_entries (before ++ d.entries (some parent) slot before.length) after
      parent (slot + 1) ds (by rw [split, length]; simp)
    rw [length] at tail
    rw [Dump.ids, Dump.sizeOfAll, ← List.range'_append_1]
    exact .cons head tail

end

end Tree

namespace TreeDump

/-- Nodes are numbered in the order in which they are met. -/
theorem ids_of_load {d : TreeDump} {t : Tree} (loaded : d.load = .ok t) :
    t.nodes.map Node.id = List.range d.root.size := by
  have ids := Node.ids_listing d.source.toList .root 0 d.root fun _ => rfl
  rw [Tree.nodes, (root?_of_load loaded).2, List.range_eq_range']
  exact ids

/-- Loading keeps a dump as it is, whether by recursion or from a stack. Read back from node 0 along
the lists of children, the tree is the dump, with the kinds that its tags name and its spans, and
the numbers of the nodes count up from 0 in the order in which the dump writes them down; there are
no other nodes. -/
theorem load_reads (d : TreeDump) (t : Tree) (loaded : d.load = .ok t) :
    (Builder.drain (.empty d.source) [(none, d.root)]).finish = .ok t ∧
      t.source = d.source ∧
      t.Reads 0 d.root (List.range d.root.size) ∧
      t.size = d.root.size ∧
      t.nodes.map Node.id = List.range d.root.size := by
  have entries : t.entries.toList = d.root.entries none 0 0 := by
    rw [(entries_of_load loaded).2]
  refine ⟨?_, (root?_of_load loaded).1, ?_, ?_, ids_of_load loaded⟩
  · rw [← load_eq_drain, loaded]
  · rw [List.range_eq_range']
    exact Tree.reads_entries [] [] none 0 d.root (by rw [entries]; simp)
  · rw [Tree.size, ← Array.length_toList, entries, Dump.length_entries]

/-- Two commands with arguments, a token between them and a tag that is not known. -/
def branches : TreeDump where
  source := "a b;c"
  root :=
    ⟨"program", true, ⟨⟨0, ⟨0, 0⟩⟩, ⟨5, ⟨0, 5⟩⟩⟩, [
      ⟨"command", true, ⟨⟨0, ⟨0, 0⟩⟩, ⟨3, ⟨0, 3⟩⟩⟩, [
        ⟨"word", true, ⟨⟨0, ⟨0, 0⟩⟩, ⟨1, ⟨0, 1⟩⟩⟩, []⟩,
        ⟨"list_element", true, ⟨⟨2, ⟨0, 2⟩⟩, ⟨3, ⟨0, 3⟩⟩⟩, []⟩]⟩,
      ⟨";", false, ⟨⟨3, ⟨0, 3⟩⟩, ⟨4, ⟨0, 4⟩⟩⟩, []⟩,
      ⟨"command", true, ⟨⟨4, ⟨0, 4⟩⟩, ⟨5, ⟨0, 5⟩⟩⟩, [
        ⟨"word", true, ⟨⟨4, ⟨0, 4⟩⟩, ⟨5, ⟨0, 5⟩⟩⟩, []⟩]⟩]⟩

/-- A dump with tokens, unknown tags and nodes on three levels. -/
theorem load_reads_branches :
    ∃ t, branches.load = .ok t ∧
      (Builder.drain (.empty branches.source) [(none, branches.root)]).finish = .ok t ∧
      t.Reads 0 branches.root [0, 1, 2, 3, 4, 5, 6] ∧ t.size = 7 := by
  have accepted : branches.load.toOption.isSome = true := by decide +kernel
  cases loaded : branches.load with
  | error fault =>
    rw [loaded] at accepted
    cases accepted
  | ok t =>
    obtain ⟨drained, -, reads, size, -⟩ := load_reads branches t loaded
    exact ⟨t, rfl, drained, reads, size⟩

end TreeDump

end FishNav
