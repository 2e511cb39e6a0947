import FishNav.Proofs.Text
import FishNav.Tree.Node

/-!
# Loading dumps

A dump whose spans describe the text loads (`load_of_sound`), and the tree that comes out is the
dump again (`root?_of_load`): the same nodes under the same parents, with the kinds that their tags
name, the spans they were dumped with, the texts of these spans, and numbers that count the nodes
in the order in which they are written down.

The arena in between is described by `Dump.entries`, one entry for each node; building it is one
direction of the argument (`pushDump_entries`), growing subtrees from it is the other
(`grow_entries`).
-/
namespace FishNav

/-- An outcome passes a test only if there is a result, and the result passes it. -/
theorem exists_ok_of_any {ε α : Type} {result : Except ε α} {p : α → Bool}
    (any : result.toOption.any p = true) : ∃ a, result = .ok a ∧ p a = true := by
  cases result with
  | error e => cases any
  | ok a => exact ⟨a, rfl, any⟩

namespace Dump

mutual

def size : Dump → Nat
  | ⟨_, _, _, children⟩ => sizeOfAll children + 1

def sizeOfAll : List Dump → Nat
  | [] => 0
  | d :: ds => size d + sizeOfAll ds

end

def ids (id : Nat) : List Dump → List Nat
  | [] => []
  | d :: ds => id :: ids (id + d.size) ds

mutual

/-- The entries of a dump whose root gets number `id`. -/
def entries (parent : Option Nat) (slot id : Nat) : Dump → List Entry
  | ⟨tag, named, span, children⟩ =>
    ⟨Kind.ofTag tag named, span, parent, slot, ids (id + 1) children⟩ ::
      entriesOfAll id 0 (id + 1) children

def entriesOfAll (parent slot id : Nat) : List Dump → List Entry
  | [] => []
  | d :: ds => entries (some parent) slot id d ++ entriesOfAll parent (slot + 1) (id + d.size) ds

end

mutual

/-- The subtree that a dump stands for when its root gets number `id`. -/
def subtree (text : List Char) (id : Nat) : Dump → Subtree
  | ⟨tag, named, span, children⟩ =>
    { id
      kind := Kind.ofTag tag named
      span
      text := String.ofList ((Text.slice? text span.start.byte span.stop.byte).getD [])
      children := subtrees text (id + 1) children }

def subtrees (text : List Char) (id : Nat) : List Dump → List Subtree
  | [] => []
  | d :: ds => subtree text id d :: subtrees text (id + d.size) ds

end

mutual

/-- The subtrees of all nodes of a dump, each before those below it. -/
def allSubtrees (text : List Char) (id : Nat) : Dump → List Subtree
  | ⟨tag, named, span, children⟩ =>
    subtree text id ⟨tag, named, span, children⟩ :: allSubtreesOfAll text (id + 1) children

def allSubtreesOfAll (text : List Char) (id : Nat) : List Dump → List Subtree
  | [] => []
  | d :: ds => allSubtrees text id d ++ allSubtreesOfAll text (id + d.size) ds

end

/-! ### Sizes -/

theorem size_eq (d : Dump) : d.size = sizeOfAll d.children + 1 := by
  cases d
  rw [size]

mutual

theorem length_entries (parent : Option Nat) (slot id : Nat) (d : Dump) :
    (d.entries parent slot id).length = d.size := by
  cases d with
  | mk tag named span children =>
    rw [entries, size, List.length_cons, length_entriesOfAll]

theorem length_entriesOfAll (parent slot id : Nat) (ds : List Dump) :
    (entriesOfAll parent slot id ds).length = sizeOfAll ds := by
  cases ds with
  | nil => simp [entriesOfAll, sizeOfAll]
  | cons d ds =>
    rw [entriesOfAll, sizeOfAll, List.length_append, length_entries, length_entriesOfAll]

end

mutual

theorem length_allSubtrees (text : List Char) (id : Nat) (d : Dump) :
    (d.allSubtrees text id).length = d.size := by
  cases d with
  | mk tag named span children =>
    rw [allSubtrees, size, List.length_cons, length_allSubtreesOfAll]

theorem length_allSubtreesOfAll (text : List Char) (id : Nat) (ds : List Dump) :
    (allSubtreesOfAll text id ds).length = sizeOfAll ds := by
  cases ds with
  | nil => simp [allSubtreesOfAll, sizeOfAll]
  | cons d ds =>
    rw [allSubtreesOfAll, sizeOfAll, List.length_append, length_allSubtrees,
      length_allSubtreesOfAll]

end

end Dump

/-! ### Building the arena -/

namespace Builder

theorem entries_push_none (b : Builder) (kind : Kind) (span : Span) :
    (b.push none kind span).entries.toList = b.entries.toList ++ [⟨kind, span, none, 0, []⟩] :=
  pushEntry_none b.entries kind span

theorem entries_push_some (b : Builder) {p : Nat} {e : Entry}
    (parent : b.entries.toList[p]? = some e) (kind : Kind) (span : Span) :
    (b.push (some p) kind span).entries.toList =
      b.entries.toList.modify p (adopt [b.size]) ++
        [⟨kind, span, some p, e.children.length, []⟩] :=
  pushEntry_some parent kind span

theorem modify_append_of_lt {xs ys : List Entry} {i : Nat} (f : Entry → Entry)
    (inside : i < xs.length) : (xs ++ ys).modify i f = xs.modify i f ++ ys := by
  apply List.ext_getElem?
  intro j
  simp only [List.getElem?_modify, List.getElem?_append, List.length_modify]
  grind

theorem modify_append_length (xs ys : List Entry) (x : Entry) (f : Entry → Entry) :
    (xs ++ x :: ys).modify xs.length f = xs ++ f x :: ys := by
  apply List.ext_getElem?
  intro j
  simp only [List.getElem?_modify, List.getElem?_append, List.getElem?_cons]
  grind

theorem modify_adopt_nil (es : List Entry) (p : Nat) : es.modify p (adopt []) = es := by
  apply List.ext_getElem?
  intro j
  simp [List.getElem?_modify, adopt]

theorem modify_adopt_adopt (es : List Entry) (p : Nat) (ids more : List Nat) :
    (es.modify p (adopt ids)).modify p (adopt more) = es.modify p (adopt (ids ++ more)) := by
  rw [List.modify_modify_eq]
  congr 1
  funext e
  simp [adopt]

theorem size_eq_length (b : Builder) : b.size = b.entries.toList.length := by simp [size]

/-- What `pushDumps_entries` comes to for the children of the entry that was added last. -/
theorem entries_of_last {b : Builder} {es all : List Entry} {e : Entry} {id : Nat}
    {children : List Dump} (last : b.entries.toList = es ++ [e]) (length : es.length = id)
    (leaf : e.children = [])
    (pushed : all = b.entries.toList.modify id (adopt (Dump.ids b.size children)) ++
      Dump.entriesOfAll id e.children.length b.size children) :
    all = es ++ { e with children := Dump.ids (id + 1) children } ::
      Dump.entriesOfAll id 0 (id + 1) children := by
  subst length
  have size : b.size = es.length + 1 := by rw [size_eq_length, last]; simp
  rw [pushed, last, modify_append_length, size, leaf]
  simp [adopt, leaf]

mutual

/-- A dump under an entry that is there: the entry gets a child, the new entries come last. -/
theorem pushDump_entries (b : Builder) {p : Nat} {e : Entry}
    (parent : b.entries.toList[p]? = some e) (d : Dump) :
    (pushDump (some p) b d).source = b.source ∧
      (pushDump (some p) b d).entries.toList =
        b.entries.toList.modify p (adopt [b.size]) ++
          d.entries (some p) e.children.length b.size := by
  cases d with
  | mk tag named span children =>
    have pushed := entries_push_some b parent (Kind.ofTag tag named) span
    have last : (b.entries.toList.modify p (adopt [b.size])).length = b.size := by simp [size]
    obtain ⟨source', pushed'⟩ := pushDumps_entries (b.push (some p) (Kind.ofTag tag named) span)
      (p := b.size) (by rw [pushed, List.getElem?_append_right (by omega), last, Nat.sub_self]; rfl)
      children
    rw [pushDump, Dump.entries]
    exact ⟨source', entries_of_last pushed last rfl pushed'⟩

/-- Adding dumps under a parent appends their entries and tells the parent their numbers. -/
theorem pushDumps_entries (b : Builder) {p : Nat} {e : Entry}
    (parent : b.entries.toList[p]? = some e) (ds : List Dump) :
    (pushDumps (some p) b ds).source = b.source ∧
      (pushDumps (some p) b ds).entries.toList =
        b.entries.toList.modify p (adopt (Dump.ids b.size ds)) ++
          Dump.entriesOfAll p e.children.length b.size ds := by
  cases ds with
  | nil => simp [pushDumps, Dump.ids, Dump.entriesOfAll, modify_adopt_nil]
  | cons d ds =>
    obtain ⟨source, pushed⟩ := pushDump_entries b parent d
    have inside : p < b.entries.toList.length := (List.getElem?_eq_some_iff.mp parent).1
    have size : (pushDump (some p) b d).size = b.size + d.size := by
      rw [size_eq_length, pushed, size_eq_length b]
      simp [Dump.length_entries]
    have parent' : (pushDump (some p) b d).entries.toList[p]? = some (adopt [b.size] e) := by
      rw [pushed, List.getElem?_append_left (by simpa using inside), List.getElem?_modify_eq,
        parent]
      rfl
    obtain ⟨source', pushed'⟩ := pushDumps_entries (pushDump (some p) b d) parent' ds
    rw [pushDumps, Dump.ids, Dump.entriesOfAll]
    refine ⟨source'.trans source, ?_⟩
    rw [pushed', pushed, size, modify_append_of_lt _ (by simpa using inside), modify_adopt_adopt]
    simp [adopt]

end

/-- The arena of a whole dump. -/
theorem pushDump_root (source : String) (d : Dump) :
    (pushDump none (.empty source) d).source = source ∧
      (pushDump none (.empty source) d).entries = (d.entries none 0 0).toArray := by
  cases d with
  | mk tag named span children =>
    have pushed := entries_push_none (.empty source) (Kind.ofTag tag named) span
    obtain ⟨same, pushed'⟩ := pushDumps_entries _ (p := 0) (by rw [pushed]; rfl) children
    have all := entries_of_last pushed rfl rfl pushed'
    rw [pushDump, Dump.entries]
    exact ⟨same, Array.toList_inj.mp all⟩

/-! ### Handing out the tree -/

/-- A tree has the text and the entries of its builder. -/
theorem finish_eq_ok {b : Builder} {t : Tree} (finished : b.finish = .ok t) :
    ∃ sound : b.firstFault? = none, t = ⟨b.source, b.entries, b.links, sound⟩ := by
  rw [finish] at finished
  split at finished
  · cases finished
  · next sound => exact ⟨sound, (Except.ok.inj finished).symm⟩

theorem finish_of_faultless {b : Builder} (sound : b.firstFault? = none) :
    ∃ t, b.finish = .ok t := by
  rw [finish]
  split
  · next fault found => simp [sound] at found
  · exact ⟨_, rfl⟩

end Builder

/-! ### Growing the tree -/

namespace Dump

theorem allSubtrees_head (text : List Char) (id : Nat) (d : Dump) :
    (d.allSubtrees text id)[0]? = some (d.subtree text id) := by
  cases d
  rw [allSubtrees]
  rfl

/-- The children of an entry are found among the subtrees grown so far. -/
theorem subtrees_of_ids (text : List Char) (id : Nat) (rest : List Subtree) (ds : List Dump) :
    ∀ (start : Nat) (before : List Subtree), start = id + 1 + before.length →
      (ids start ds).filterMap (fun c => if id < c then
        (before ++ (allSubtreesOfAll text start ds ++ rest))[c - (id + 1)]? else none) =
      subtrees text start ds := by
  induction ds with
  | nil => intros; simp [ids, subtrees]
  | cons d ds ih =>
    intro start before place
    have length := length_allSubtrees text start d
    have first : (before ++ (allSubtreesOfAll text start (d :: ds) ++ rest))[start - (id + 1)]? =
        some (d.subtree text start) := by
      have here : start - (id + 1) = before.length := by omega
      rw [here, List.getElem?_append_right (Nat.le_refl _), Nat.sub_self, allSubtreesOfAll,
        List.append_assoc, List.getElem?_append_left (by rw [length, size_eq]; omega),
        allSubtrees_head]
    have next := ih (start + d.size) (before ++ d.allSubtrees text start)
      (by rw [List.length_append]; omega)
    rw [ids, subtrees, List.filterMap_cons, if_pos (by omega), first, ← next]
    simp only [allSubtreesOfAll, List.append_assoc]

mutual

/-- Growing subtrees from the entries of a dump gives the subtrees of the dump. -/
theorem grow_entries (text : List Char) (parent : Option Nat) (slot id : Nat)
    (later : List Entry) (d : Dump) :
    Tree.grow text id (d.entries parent slot id ++ later) =
      d.allSubtrees text id ++ Tree.grow text (id + d.size) later := by
  cases d with
  | mk tag named span children =>
    have below := grow_entriesOfAll text id 0 (id + 1) later children
    have found := subtrees_of_ids text id (Tree.grow text (id + 1 + sizeOfAll children) later)
      children (id + 1) [] rfl
    have size : id + (sizeOfAll children + 1) = id + 1 + sizeOfAll children := by omega
    rw [List.nil_append] at found
    rw [entries, allSubtrees, Dump.size, List.cons_append, Tree.grow, below, subtree, size]
    simp only [found, List.cons_append]

theorem grow_entriesOfAll (text : List Char) (parent slot id : Nat) (later : List Entry)
    (ds : List Dump) :
    Tree.grow text id (entriesOfAll parent slot id ds ++ later) =
      allSubtreesOfAll text id ds ++ Tree.grow text (id + sizeOfAll ds) later := by
  cases ds with
  | nil => simp [entriesOfAll, allSubtreesOfAll, sizeOfAll]
  | cons d ds =>
    rw [entriesOfAll, allSubtreesOfAll, sizeOfAll, List.append_assoc, grow_entries,
      grow_entriesOfAll, List.append_assoc, Nat.add_assoc]

end

end Dump

/-! ### Faults -/

/-- A span that runs forward between two boundaries of the text. -/
structure Span.Sound (text : List Char) (s : Span) : Prop where
  bytes : s.start.byte ≤ s.stop.byte
  inside : s.stop.byte ≤ Text.byteLength text
  positions : s.start.position ≤ s.stop.position
  start : Text.isBoundary text s.start.byte = true
  stop : Text.isBoundary text s.stop.byte = true

/-- `inner` lies inside `outer`. -/
structure Span.Within (inner outer : Span) : Prop where
  start : outer.start.byte ≤ inner.start.byte
  stop : inner.stop.byte ≤ outer.stop.byte

namespace Builder

/-- When a node has no fault. -/
theorem faultOf?_eq_none_iff {text : List Char} {entries : Array Entry} {node : Nat} {e : Entry} :
    faultOf? text entries node e = none ↔
      e.span.Sound text ∧
        match e.parent with
        | none => node = 0
        | some p => ∀ outer, entries[p]? = some outer → e.span.Within outer.span := by
  unfold faultOf?
  dsimp only
  split
  · next outside =>
    refine iff_of_false (by simp) fun ⟨sound, _⟩ => ?_
    have := sound.bytes
    have := sound.inside
    omega
  split
  · next inverted =>
    refine iff_of_false (by simp) fun ⟨sound, _⟩ => ?_
    rcases inverted with bytes | positions
    · exact absurd sound.bytes (Nat.not_le.mpr bytes)
    · exact absurd sound.positions (not_le_of_gt positions)
  split
  · next splits =>
    refine iff_of_false (by simp) fun ⟨sound, _⟩ => ?_
    simp [sound.start] at splits
  split
  · next splits =>
    refine iff_of_false (by simp) fun ⟨sound, _⟩ => ?_
    simp [sound.stop] at splits
  next inside forward start stop =>
    have sound : e.span.Sound text :=
      ⟨by omega, by omega, not_lt.mp fun back => forward (Or.inr back), by simpa using start,
        by simpa using stop⟩
    cases parent : e.parent with
    | none =>
      simp only [sound, true_and]
      split <;> simp <;> omega
    | some p =>
      cases found : entries[p]? with
      | none => simp [sound, found]
      | some outer =>
        simp only [sound, found, true_and, Option.some.injEq, forall_eq']
        split
        · next beyond =>
          refine iff_of_false (by simp) fun within => ?_
          have := within.start
          have := within.stop
          omega
        · next within => exact iff_of_true rfl ⟨by omega, by omega⟩

/-- There is no first fault exactly if no node has one. -/
theorem faultIn?_eq_none_iff {source : String} {entries : Array Entry} :
    faultIn? source entries = none ↔
      ∀ node e, entries.toList[node]? = some e →
        faultOf? source.toList entries node e = none := by
  rw [faultIn?, List.findSome?_eq_none_iff]
  constructor
  · intro sound node e found
    exact sound (e, node) (List.mk_mem_zipIdx_iff_getElem?.mpr found)
  · rintro sound ⟨e, node⟩ member
    exact sound node e (List.mk_mem_zipIdx_iff_getElem?.mp member)

end Builder

namespace Dump

mutual

/-- Every node has a sound span, inside that of its parent. -/
def Sound (text : List Char) : Dump → Prop
  | ⟨_, _, span, children⟩ => span.Sound text ∧ SoundAll text span children

def SoundAll (text : List Char) (outer : Span) : List Dump → Prop
  | [] => True
  | d :: ds => d.span.Within outer ∧ Sound text d ∧ SoundAll text outer ds

end

variable {text : List Char} {all : List Entry}

mutual

/-- The entries of a sound dump have no fault, wherever they stand in an arena in which the parent
of the root is around it. -/
theorem faultless (parent : Option Nat) (slot id : Nat) (d : Dump) (sound : d.Sound text)
    (place : ∀ i, i < d.size → all[id + i]? = (d.entries parent slot id)[i]?)
    (around : match parent with
      | none => id = 0
      | some p => ∀ outer, all[p]? = some outer → d.span.Within outer.span) :
    ∀ i e, (d.entries parent slot id)[i]? = some e →
      Builder.faultOf? text all.toArray (id + i) e = none := by
  cases d with
  | mk tag named span children =>
    rw [Sound] at sound
    rw [size] at place
    have self : all[id]? =
        some ⟨Kind.ofTag tag named, span, parent, slot, ids (id + 1) children⟩ := by
      have first := place 0 (by omega)
      simpa [entries] using first
    intro i e found
    rw [entries] at found
    cases i with
    | zero =>
      obtain rfl : _ = e := by simpa using found
      refine Builder.faultOf?_eq_none_iff.mpr ⟨sound.1, ?_⟩
      cases parent with
      | none => exact around
      | some p => simpa using around
    | succ i =>
      have below := faultlessAll id 0 (id + 1) span children sound.2
        (fun j bound => by
          have next := place (j + 1) (by omega)
          rw [entries, List.getElem?_cons_succ] at next
          rw [← next]
          congr 1
          omega)
        (fun outer found => by
          rw [self] at found
          obtain rfl := Option.some.inj found
          rfl)
        i e (by simpa using found)
      rwa [show id + (i + 1) = id + 1 + i by omega]

theorem faultlessAll (parent slot id : Nat) (outer : Span) (ds : List Dump)
    (sound : SoundAll text outer ds)
    (place : ∀ i, i < sizeOfAll ds → all[id + i]? = (entriesOfAll parent slot id ds)[i]?)
    (around : ∀ e, all[parent]? = some e → e.span = outer) :
    ∀ i e, (entriesOfAll parent slot id ds)[i]? = some e →
      Builder.faultOf? text all.toArray (id + i) e = none := by
  cases ds with
  | nil => simp [entriesOfAll]
  | cons d ds =>
    rw [SoundAll] at sound
    obtain ⟨within, first, more⟩ := sound
    rw [sizeOfAll] at place
    have length := length_entries (some parent) slot id d
    intro i e found
    rw [entriesOfAll] at found
    by_cases inside : i < d.size
    · rw [List.getElem?_append_left (by omega)] at found
      refine faultless (some parent) slot id d first (fun j bound => ?_) ?_ i e found
      · rw [place j (by omega), entriesOfAll, List.getElem?_append_left (by omega)]
      · intro e found
        rw [around e found]
        exact within
    · rw [List.getElem?_append_right (by omega), length] at found
      have rest := faultlessAll parent (slot + 1) (id + d.size) outer ds more
        (fun j bound => by
          have next := place (d.size + j) (by omega)
          rw [entriesOfAll, List.getElem?_append_right (by omega), length] at next
          rw [show id + d.size + j = id + (d.size + j) by omega, next]
          congr 1
          omega)
        around (i - d.size) e found
      rwa [show id + d.size + (i - d.size) = id + i by omega] at rest

end

end Dump

namespace TreeDump

/-- A dump with sound spans is accepted. -/
theorem load_of_sound {d : TreeDump} (sound : d.root.Sound d.source.toList) :
    ∃ t, d.load = .ok t := by
  obtain ⟨source, entries⟩ := Builder.pushDump_root d.source d.root
  have none : (Builder.pushDump none (.empty d.source) d.root).firstFault? = none := by
    rw [Builder.firstFault?, source, entries, Builder.faultIn?_eq_none_iff]
    intro node e found
    have place : ∀ i, i < d.root.size →
        (d.root.entries none 0 0)[0 + i]? = (d.root.entries none 0 0)[i]? := fun i _ => by
      rw [Nat.zero_add]
    have faultless := Dump.faultless none 0 0 d.root sound place rfl node e found
    rwa [Nat.zero_add] at faultless
  exact Builder.finish_of_faultless none

/-- A loaded tree has the text of its dump and the entries of the dump's nodes. -/
theorem entries_of_load {d : TreeDump} {t : Tree} (loaded : d.load = .ok t) :
    t.source = d.source ∧ t.entries = (d.root.entries none 0 0).toArray := by
  obtain ⟨_, rfl⟩ := Builder.finish_eq_ok loaded
  exact Builder.pushDump_root d.source d.root

/-- Loading gives the dump back as a tree. -/
theorem root?_of_load {d : TreeDump} {t : Tree} (loaded : d.load = .ok t) :
    t.source = d.source ∧ t.root? = some (.root (d.root.subtree d.source.toList 0)) := by
  obtain ⟨source, entries⟩ := entries_of_load loaded
  have grown := Dump.grow_entries d.source.toList none 0 0 [] d.root
  rw [List.append_nil, Tree.grow, List.append_nil] at grown
  refine ⟨source, ?_⟩
  rw [Tree.root?, source, entries, grown, List.head?_eq_getElem?, Dump.allSubtrees_head]
  rfl

end TreeDump

end FishNav
