import FishNav.Proofs.Tree.Enumeration
import Mathlib.Data.List.Induction

/-!
# Faults of a builder

Ends of nodes move while a tree is built, and parents may be named that are not there. What came of
a node can be read off the changes: the push that made it, and the last move of its end behind that
push (`Makes`, `accounts_run`). A builder hands out a tree just when all nodes fit the text and
their parents as they are in the end (`exists_finish_iff`). Otherwise it reports the first fault, in
the order of the nodes and, for one node, in the order of the checks (`finish_eq_error_iff`). In a
tree that is handed out the texts of the nodes are parts of the source, and each lies inside the
text of its parent (`finish_outcome`).
-/
namespace FishNav

/-- What is known of a node apart from its place among its siblings. -/
structure Account where
  parent : Option Nat
  kind : Kind
  span : Span
  deriving DecidableEq, Repr

def Entry.account (e : Entry) : Account := ⟨e.parent, e.kind, e.span⟩

namespace Builder

/-! ### What changes make of a node -/

def accounts (b : Builder) : List Account := b.entries.toList.map Entry.account

theorem map_account_modify (es : List Entry) (node : Nat) (f : Entry → Entry)
    (g : Account → Account) (agrees : ∀ e, (f e).account = g e.account) :
    (es.modify node f).map Entry.account = (es.map Entry.account).modify node g := by
  apply List.ext_getElem?
  intro i
  simp only [List.getElem?_map, List.getElem?_modify, Option.map_eq_map, Option.map_map]
  congr 1
  funext e
  dsimp only [Function.comp]
  split
  · exact agrees e
  · rfl

theorem accounts_push (b : Builder) (parent : Option Nat) (kind : Kind) (span : Span) :
    (b.push parent kind span).accounts =
      b.accounts ++ [⟨parent.filter (· < b.size), kind, span⟩] := by
  obtain ⟨e, entries, rfl, rfl, above, -⟩ := pushEntry_eq_attach b.entries parent kind span
  rw [accounts, push, entries, attach, List.map_append, size, ← above]
  congr 1
  -- a node that gets a child keeps its account
  split
  · rfl
  · next p _ =>
    rw [map_account_modify _ p (adopt _) id fun _ => rfl, List.modify_id]
    rfl

theorem accounts_setStop (b : Builder) (node : Nat) (stop : Mark) :
    (b.setStop node stop).accounts =
      b.accounts.modify node fun a => { a with span := ⟨a.span.start, stop⟩ } := by
  change (moveStop b.entries node stop).toList.map Entry.account = _
  rw [moveStop, Array.toList_modify]
  exact map_account_modify _ _ _ _ fun _ => rfl

/-- The end that a change gives to node `i`. -/
def Step.moves (i : Nat) (stop : Mark) : Step → Mark
  | .push .. => stop
  | .setStop node mark => if node = i then mark else stop

def Step.isPush : Step → Bool
  | .push .. => true
  | .setStop .. => false

/-- What some changes make of node `i`: its push names the parent, which counts if it is there by
then, the kind and the start; the end is where the push or the last change of it behind the push
puts it. -/
def Makes (steps : List Step) (i : Nat) (a : Account) : Prop :=
  ∃ before named stop after, steps = before ++ .push named a.kind ⟨a.span.start, stop⟩ :: after ∧
    before.countP Step.isPush = i ∧ a.parent = named.filter (· < i) ∧
    a.span.stop = after.foldl (Step.moves i) stop

variable {steps : List Step} {i : Nat} {a : Account}

/-- The last change is the one that stands out, or it is behind that one. -/
theorem concat_eq_append_cons_iff {last step : Step} {before after : List Step} :
    steps ++ [last] = before ++ step :: after ↔
      steps = before ∧ last = step ∧ after = [] ∨
        ∃ more, after = more ++ [last] ∧ steps = before ++ step :: more := by
  constructor
  · intro split
    rcases List.eq_nil_or_concat after with rfl | ⟨more, end', rfl⟩
    · obtain ⟨rfl, same⟩ := List.append_inj' split rfl
      exact Or.inl ⟨rfl, List.singleton_inj.mp same, rfl⟩
    · rw [List.concat_eq_append, ← List.cons_append, ← List.append_assoc] at split
      obtain ⟨rfl, same⟩ := List.append_inj' split rfl
      obtain rfl := List.singleton_inj.mp same
      exact Or.inr ⟨more, List.concat_eq_append, rfl⟩
  · rintro (⟨rfl, rfl, rfl⟩ | ⟨more, rfl, rfl⟩)
    · rfl
    · rw [List.append_assoc, List.cons_append]

theorem makes_push_iff {named : Option Nat} {kind : Kind} {span : Span} :
    Makes (steps ++ [.push named kind span]) i a ↔
      Makes steps i a ∨
        i = steps.countP Step.isPush ∧ a = ⟨named.filter (· < i), kind, span⟩ := by
  constructor
  · rintro ⟨before, named', stop, after, split, count, parent, moved⟩
    rcases concat_eq_append_cons_iff.mp split with ⟨rfl, same, rfl⟩ | ⟨more, rfl, rfl⟩
    · cases same
      refine Or.inr ⟨count.symm, ?_⟩
      rw [← parent]
      rcases a with ⟨parent', kind', start, last⟩
      cases moved
      rfl
    · refine Or.inl ⟨before, named', stop, more, rfl, count, parent, ?_⟩
      rw [moved, List.foldl_append]
      rfl
  · rintro (⟨before, named', stop, after, rfl, count, parent, moved⟩ | ⟨count, rfl⟩)
    · refine ⟨before, named', stop, after ++ [.push named kind span], ?_, count, parent, ?_⟩
      · rw [List.append_assoc, List.cons_append]
      · rw [moved, List.foldl_append]
        rfl
    · exact ⟨steps, named, span.stop, [], rfl, count.symm, rfl, rfl⟩

theorem makes_setStop_iff {node : Nat} {mark : Mark} :
    Makes (steps ++ [.setStop node mark]) i a ↔
      ∃ b, Makes steps i b ∧
        a = if node = i then { b with span := ⟨b.span.start, mark⟩ } else b := by
  constructor
  · rintro ⟨before, named, stop, after, split, count, parent, moved⟩
    rcases concat_eq_append_cons_iff.mp split with ⟨-, same, -⟩ | ⟨more, rfl, rfl⟩
    · cases same
    · refine ⟨{ a with span := ⟨a.span.start, more.foldl (Step.moves i) stop⟩ },
        ⟨before, named, stop, more, rfl, count, parent, rfl⟩, ?_⟩
      rw [List.foldl_append] at moved
      rcases a with ⟨parent', kind, start, last⟩
      obtain rfl : last = if node = i then mark else more.foldl (Step.moves i) stop := moved
      split <;> rfl
  · rintro ⟨b, ⟨before, named, stop, after, rfl, count, parent, moved⟩, rfl⟩
    refine ⟨before, named, stop, after ++ [.setStop node mark], ?_, count, ?_, ?_⟩
    · rw [List.append_assoc, List.cons_append]
      split <;> rfl
    · rw [← parent]
      split <;> rfl
    · rw [List.foldl_append, ← moved, List.foldl_cons, List.foldl_nil, Step.moves]
      split <;> rfl

theorem source_apply (b : Builder) (step : Step) : (b.apply step).source = b.source := by
  cases step with
  | push parent kind span => rfl
  | setStop node stop => rfl

theorem run_concat (source : String) (steps : List Step) (last : Step) :
    run source (steps ++ [last]) = (run source steps).apply last := by
  rw [run, List.foldl_append]
  rfl

theorem source_run (source : String) (steps : List Step) : (run source steps).source = source := by
  induction steps using List.reverseRecOn with
  | nil => rfl
  | append_singleton steps last ih => rw [run_concat, source_apply, ih]

/-- The nodes of a builder are those that its changes made, and nothing else is known of them. -/
theorem accounts_run (source : String) (steps : List Step) :
    (run source steps).accounts.length = steps.countP Step.isPush ∧
      ∀ i a, (run source steps).accounts[i]? = some a ↔ Makes steps i a := by
  induction steps using List.reverseRecOn with
  | nil =>
    refine ⟨rfl, fun i a => ⟨fun found => ?_, ?_⟩⟩
    · cases found
    · rintro ⟨before, named, stop, after, split, -⟩
      exact absurd split (by simp)
  | append_singleton steps last ih =>
    obtain ⟨length, made⟩ := ih
    rw [run_concat, List.countP_append, ← length]
    cases last with
    | push named kind span =>
      have size : (run source steps).size = (run source steps).accounts.length := by
        rw [size_eq_length, accounts, List.length_map]
      rw [apply, accounts_push, size]
      refine ⟨List.length_append, fun i a => ?_⟩
      rw [makes_push_iff, ← made, ← length]
      grind
    | setStop node mark =>
      rw [apply, accounts_setStop]
      refine ⟨List.length_modify .., fun i a => ?_⟩
      rw [makes_setStop_iff, List.getElem?_modify, Option.map_eq_map, Option.map_eq_some_iff]
      simp only [made, eq_comm]

/-! ### What is asked of a node -/

/-- Node `i` describes its part of the text: its ends are in order and lie on characters of the
text, only the first node has no parent, and a parent is around the node when all is done. -/
structure Fits (source : String) (steps : List Step) (i : Nat) (a : Account) : Prop where
  bytes : a.span.start.byte ≤ a.span.stop.byte
  inside : a.span.stop.byte ≤ source.utf8ByteSize
  positions : a.span.start.position ≤ a.span.stop.position
  start : String.Pos.Raw.IsValid source ⟨a.span.start.byte⟩
  stop : String.Pos.Raw.IsValid source ⟨a.span.stop.byte⟩
  parent : i ≠ 0 → a.parent ≠ none
  within : ∀ p outer, a.parent = some p → Makes steps p outer → a.span.Within outer.span

/-- Node `i` does not pass a check, and what is said then. The checks are numbered in the order in
which they are made. -/
inductive Fails (source : String) (steps : List Step) (i : Nat) (a : Account) :
    Nat → Fault → Prop where
  | outOfBounds (beyond : source.utf8ByteSize < a.span.start.byte ∨
      source.utf8ByteSize < a.span.stop.byte) :
    Fails source steps i a 0
      (.outOfBounds i a.span.start.byte a.span.stop.byte source.utf8ByteSize)
  | inverted (back : a.span.stop.byte < a.span.start.byte ∨
      a.span.stop.position < a.span.start.position) :
    Fails source steps i a 1 (.inverted i a.span.start.position a.span.stop.position)
  | start (cut : ¬String.Pos.Raw.IsValid source ⟨a.span.start.byte⟩) :
    Fails source steps i a 2 (.splitsCharacter i a.span.start.byte)
  | stop (cut : ¬String.Pos.Raw.IsValid source ⟨a.span.stop.byte⟩) :
    Fails source steps i a 3 (.splitsCharacter i a.span.stop.byte)
  | orphan (later : i ≠ 0) (alone : a.parent = none) : Fails source steps i a 4 (.orphan i)
  | outsideParent {p : Nat} {outer : Account} (parent : a.parent = some p)
      (made : Makes steps p outer) (beyond : a.span.start.byte < outer.span.start.byte ∨
        outer.span.stop.byte < a.span.stop.byte) :
    Fails source steps i a 4 (.outsideParent i p)

variable {source : String} {f : Fault} {e : Entry}

/-- What changes make of a node is what the builder has for it afterwards. -/
theorem makes_iff (source : String) :
    Makes steps i a ↔ ∃ e, (run source steps).entries[i]? = some e ∧ e.account = a := by
  rw [← (accounts_run source steps).2 i a, accounts, List.getElem?_map, Array.getElem?_toList,
    Option.map_eq_some_iff]

theorem Makes.unique {b : Account} (left : Makes steps i a) (right : Makes steps i b) : a = b := by
  have made := (accounts_run "" steps).2 i
  exact Option.some.inj (((made a).mpr left).symm.trans ((made b).mpr right))

/-- A check has one thing to say. -/
theorem Fails.unique {rank : Nat} {g : Fault} (left : Fails source steps i a rank f)
    (right : Fails source steps i a rank g) : f = g := by
  cases left with
  | outOfBounds | inverted | start | stop =>
    cases right
    rfl
  | orphan later alone =>
    cases right with
    | orphan => rfl
    | outsideParent parent => exact absurd (alone.symm.trans parent) (by simp)
  | outsideParent parent =>
    cases right with
    | orphan later alone => exact absurd (alone.symm.trans parent) (by simp)
    | outsideParent parent' => rw [Option.some.inj (parent.symm.trans parent')]

/-- A node fits exactly if it passes all checks. -/
theorem fits_iff_not_fails :
    Fits source steps i a ↔ ∀ rank f, ¬Fails source steps i a rank f := by
  constructor
  · intro fits rank f fails
    have order := fits.bytes
    have inside := fits.inside
    cases fails with
    | outOfBounds beyond => omega
    | inverted back =>
      rcases back with bytes | positions
      · omega
      · exact absurd fits.positions (not_le_of_gt positions)
    | start cut => exact cut fits.start
    | stop cut => exact cut fits.stop
    | orphan later alone => exact fits.parent later alone
    | outsideParent parent made beyond =>
      have within := fits.within _ _ parent made
      have := within.start
      have := within.stop
      omega
  · intro passes
    have bounds : ¬(_ ∨ _) := fun beyond => passes 0 _ (.outOfBounds beyond)
    have order : ¬(_ ∨ _) := fun back => passes 1 _ (.inverted back)
    constructor
    case bytes => omega
    case inside => omega
    case positions => exact not_lt.mp fun back => order (Or.inr back)
    case start => exact not_not.mp fun cut => passes 2 _ (.start cut)
    case stop => exact not_not.mp fun cut => passes 3 _ (.stop cut)
    case parent => exact fun later alone => passes 4 _ (.orphan later alone)
    case within =>
      intro p outer parent made
      have around : ¬(_ ∨ _) := fun beyond => passes 4 _ (.outsideParent parent made beyond)
      exact ⟨by omega, by omega⟩

theorem fits_of_faultOf?_run
    (found : faultOf? source.toList (run source steps).entries i e = none) :
    Fits source steps i e.account := by
  obtain ⟨sound, around⟩ := faultOf?_eq_none_iff.mp found
  constructor
  case bytes => exact sound.bytes
  case inside => exact Nat.le_trans sound.inside (Nat.le_of_eq (Text.byteLength_toList source))
  case positions => exact sound.positions
  case start => exact Text.isBoundary_iff.mp sound.start
  case stop => exact Text.isBoundary_iff.mp sound.stop
  case parent =>
    intro later alone
    rw [show e.parent = none from alone] at around
    exact later around
  case within =>
    intro p outer parent made
    obtain ⟨q, there, rfl⟩ := (makes_iff source).mp made
    rw [show e.parent = some p from parent] at around
    exact around q there

/-- The checks of a node are made in their order, and the first that does not pass is reported. -/
theorem least_of_faultOf?_run
    (found : faultOf? source.toList (run source steps).entries i e = some f) :
    ∃ rank, Fails source steps i e.account rank f ∧
      ∀ r g, Fails source steps i e.account r g → rank ≤ r := by
  have splits (n : Nat) : (!Text.isBoundary source.toList n) = true ↔
      ¬String.Pos.Raw.IsValid source ⟨n⟩ := by
    rw [← Text.isBoundary_iff, Bool.not_eq_true, Bool.not_eq_true']
  unfold faultOf? at found
  dsimp only at found
  rw [Text.byteLength_toList] at found
  simp only [splits] at found
  split at found
  · next beyond =>
    cases found
    exact ⟨0, .outOfBounds beyond, fun r _ _ => Nat.zero_le r⟩
  next inside =>
  split at found
  · next back =>
    cases found
    refine ⟨1, .inverted back, ?_⟩
    -- the checks with smaller numbers have passed, here and below
    rintro r g (_ | _ | _ | _ | _ | _) <;> first | omega | contradiction
  next forward =>
  split at found
  · next cut =>
    cases found
    refine ⟨2, .start cut, ?_⟩
    rintro r g (_ | _ | _ | _ | _ | _) <;> first | omega | contradiction
  next start =>
  split at found
  · next cut =>
    cases found
    refine ⟨3, .stop cut, ?_⟩
    rintro r g (_ | _ | _ | _ | _ | _) <;> first | omega | contradiction
  next stop =>
  have last : ∀ r g, Fails source steps i e.account r g → 4 ≤ r := by
    rintro r g (_ | _ | _ | _ | _ | _) <;> first | omega | contradiction
  split at found
  · next alone =>
    split at found
    · next later =>
      cases found
      exact ⟨4, .orphan (Nat.ne_of_gt later) alone, last⟩
    · cases found
  · next p parent =>
    split at found
    · cases found
    · next outer there =>
      split at found
      · next beyond =>
        cases found
        have made := (makes_iff source).mpr ⟨outer, there, rfl⟩
        exact ⟨4, .outsideParent parent made beyond, last⟩
      · cases found

/-! ### What a builder hands out -/

/-- The fault that is reported: all nodes before node `i` are as they should be, and of the checks
that node `i` does not pass it is the first. -/
def Reports (source : String) (steps : List Step) (f : Fault) : Prop :=
  ∃ i a rank, Makes steps i a ∧ Fails source steps i a rank f ∧
    (∀ r g, Fails source steps i a r g → rank ≤ r) ∧
    ∀ j b, j < i → Makes steps j b → Fits source steps j b

/-- There is at most one fault to report. -/
theorem Reports.unique {g : Fault} (left : Reports source steps f)
    (right : Reports source steps g) : f = g := by
  obtain ⟨i, a, rank, made, fails, least, before⟩ := left
  obtain ⟨j, b, rank', made', fails', least', before'⟩ := right
  rcases Nat.lt_trichotomy i j with less | rfl | more
  · exact absurd fails (fits_iff_not_fails.mp (before' i a less made) rank f)
  · obtain rfl := made.unique made'
    obtain rfl := Nat.le_antisymm (least rank' g fails') (least' rank f fails)
    exact fails.unique fails'
  · exact absurd fails' (fits_iff_not_fails.mp (before j b more made') rank' g)

/-- The node that the first fault is of, and no node before it has one. -/
theorem exists_of_firstFault? {b : Builder} (first : b.firstFault? = some f) :
    ∃ i e, b.entries[i]? = some e ∧ faultOf? b.source.toList b.entries i e = some f ∧
      ∀ j e', j < i → b.entries[j]? = some e' →
        faultOf? b.source.toList b.entries j e' = none := by
  obtain ⟨front, ⟨e, i⟩, back, split, found, before⟩ := List.findSome?_eq_some_iff.mp first
  have numbered (j : Nat) :
      (front ++ (e, i) :: back)[j]? = b.entries[j]?.map fun e => (e, j) := by
    rw [← split, List.getElem?_zipIdx, Array.getElem?_toList, Nat.zero_add]
  have here := numbered front.length
  rw [List.getElem?_append_right (Nat.le_refl _), Nat.sub_self, List.getElem?_cons_zero, eq_comm,
    Option.map_eq_some_iff] at here
  obtain ⟨e', there, same⟩ := here
  obtain ⟨rfl, rfl⟩ := Prod.mk.inj same
  refine ⟨front.length, e', there, found, ?_⟩
  intro j f earlier there
  have member := numbered j
  rw [there, List.getElem?_append_left earlier] at member
  exact before _ (List.mem_of_getElem? member)

theorem reports_of_finish (refused : (run source steps).finish = .error f) :
    Reports source steps f := by
  rw [finish] at refused
  split at refused
  · next fault first =>
    obtain rfl : fault = f := Except.error.inj refused
    obtain ⟨i, e, there, found, before⟩ := exists_of_firstFault? first
    rw [source_run] at found before
    obtain ⟨rank, fails, least⟩ := least_of_faultOf?_run found
    refine ⟨i, e.account, rank, (makes_iff source).mpr ⟨e, there, rfl⟩, fails, least, ?_⟩
    intro j b earlier made
    obtain ⟨e', there', rfl⟩ := (makes_iff source).mp made
    exact fits_of_faultOf?_run (before j e' earlier there')
  · cases refused

theorem fits_of_finish {t : Tree} (finished : (run source steps).finish = .ok t)
    (made : Makes steps i a) : Fits source steps i a := by
  obtain ⟨faultless, -⟩ := finish_eq_ok finished
  obtain ⟨e, found, rfl⟩ := (makes_iff source).mp made
  have passes := faultIn?_eq_none_iff.mp faultless i e (Array.getElem?_toList.trans found)
  rw [source_run] at passes
  exact fits_of_faultOf?_run passes

/-- The builder refuses with the fault that is to be reported, and with no other. -/
theorem finish_eq_error_iff : (run source steps).finish = .error f ↔ Reports source steps f := by
  refine ⟨reports_of_finish, fun reported => ?_⟩
  cases done : (run source steps).finish with
  | error g => rw [(reports_of_finish done).unique reported]
  | ok t =>
    obtain ⟨i, a, rank, made, fails, -⟩ := reported
    exact absurd fails (fits_iff_not_fails.mp (fits_of_finish done made) rank f)

/-- There is a tree exactly if all nodes fit. -/
theorem exists_finish_iff :
    (∃ t, (run source steps).finish = .ok t) ↔
      ∀ i a, Makes steps i a → Fits source steps i a := by
  constructor
  · rintro ⟨t, finished⟩ i a
    exact fits_of_finish finished
  · intro fits
    cases done : (run source steps).finish with
    | error f =>
      obtain ⟨i, a, rank, made, fails, -⟩ := reports_of_finish done
      exact absurd fails (fits_iff_not_fails.mp (fits i a made) rank f)
    | ok t => exact ⟨t, rfl⟩

end Builder

/-! ### Texts -/

def Node.account (n : Node) : Account := ⟨n.parent?.map Node.id, n.kind, n.span⟩

namespace Tree

open Builder

variable {source : String} {steps : List Step} {t : Tree} {n p : Node}

theorem Linked.account_of_mem (linked : t.Linked) (member : n ∈ t.nodes) :
    ∃ e, t.entries[n.id]? = some e ∧ e.account = n.account ∧
      n.text = String.ofList
        ((Text.slice? t.source.toList n.span.start.byte n.span.stop.byte).getD []) := by
  obtain ⟨r, root, way⟩ := mem_nodes_iff.mp member
  obtain ⟨e, there, -, parent⟩ := linked.entry_of_descends root way
  have grown := linked.subtree_of_descends root way
  rw [subtrees, getElem?_grow, Array.getElem?_toList, there] at grown
  have self := Option.some.inj grown
  refine ⟨e, there, ?_, ?_⟩
  · rw [Entry.account, Node.account, parent, Node.kind, Node.span, ← self]
  · rw [Node.text, Node.span, ← self]

theorem mem_nodes_of_parent? (member : n ∈ t.nodes) (above : n.parent? = some p) :
    p ∈ t.nodes := by
  obtain ⟨r, root, way⟩ := mem_nodes_iff.mp member
  cases way with
  | here =>
    rw [(root?_spec root).2.1] at above
    cases above
  | down way step =>
    obtain rfl := Option.some.inj ((Node.parent?_of_mem_children step).symm.trans above)
    exact mem_nodes_iff.mpr ⟨r, root, way⟩

theorem makes_of_mem (finished : (run source steps).finish = .ok t) (member : n ∈ t.nodes) :
    Makes steps n.id n.account := by
  have linked := t.linked
  obtain ⟨e, there, same, -⟩ := linked.account_of_mem member
  obtain ⟨_, rfl⟩ := finish_eq_ok finished
  exact (makes_iff source).mpr ⟨e, there, same⟩

/-- No node is lost on the way from the changes to the tree. -/
theorem exists_mem_of_makes (finished : (run source steps).finish = .ok t) {i : Nat} {a : Account}
    (made : Makes steps i a) : ∃ n ∈ t.nodes, n.id = i ∧ n.account = a := by
  have linked := t.linked
  obtain ⟨e, there, -⟩ := (makes_iff source).mp made
  have inside : i < t.size := by
    obtain ⟨_, rfl⟩ := finish_eq_ok finished
    exact (Array.getElem?_eq_some_iff.mp there).1
  obtain ⟨r, root⟩ := exists_root? (Nat.lt_of_le_of_lt (Nat.zero_le i) inside)
  obtain ⟨n, way, rfl⟩ := linked.exists_node root inside
  have member := mem_nodes_iff.mpr ⟨r, root, way⟩
  exact ⟨n, member, rfl, (makes_of_mem finished member).unique made⟩

/-- Between the ends of a node there is always something to cut out. -/
theorem slice?_of_finish (finished : (run source steps).finish = .ok t) (member : n ∈ t.nodes) :
    Text.slice? source.toList n.span.start.byte n.span.stop.byte = some n.text.toList := by
  have linked := t.linked
  have fits := fits_of_finish finished (makes_of_mem finished member)
  obtain ⟨e, -, -, text⟩ := linked.account_of_mem member
  obtain ⟨middle, cut⟩ : ∃ middle,
      Text.slice? source.toList n.span.start.byte n.span.stop.byte = some middle :=
    Text.exists_slice? fits.bytes (Text.isBoundary_iff.mpr fits.start)
      (Text.isBoundary_iff.mpr fits.stop)
  have whole : t.source = source := by
    obtain ⟨_, rfl⟩ := finish_eq_ok finished
    exact source_run source steps
  rw [whole, cut] at text
  rw [text, Option.getD_some, String.toList_ofList]
  exact cut

/-- The text of a node is cut out of the text of its parent. -/
theorem text_within_parent (finished : (run source steps).finish = .ok t) (member : n ∈ t.nodes)
    (above : n.parent? = some p) :
    ∃ front back, p.text = front ++ n.text ++ back ∧
      p.span.start.byte + front.utf8ByteSize = n.span.start.byte := by
  have member' := mem_nodes_of_parent? member above
  have fits := fits_of_finish finished (makes_of_mem finished member)
  have within := fits.within p.id p.account (by rw [Node.account, above, Option.map_some])
    (makes_of_mem finished member')
  obtain ⟨front, back, split, offset⟩ := Text.exists_of_slice?_within
    (slice?_of_finish finished member) (slice?_of_finish finished member') within.start within.stop
  refine ⟨String.ofList front, String.ofList back, ?_, ?_⟩
  · rw [← String.toList_inj, split]
    simp
  · rw [← offset, ← Text.byteLength_toList, String.toList_ofList]

end Tree

namespace Builder

/-- A tree is handed out if and only if every node that was made fits, and otherwise the first fault
is reported. In a tree that is handed out there is a node for each that was made and no other; its
text is cut out of the source, and it is a part of the text of its parent. -/
theorem finish_outcome (source : String) (steps : List Step) :
    ((∃ t, (run source steps).finish = .ok t) ↔
      ∀ i a, Makes steps i a → Fits source steps i a) ∧
    (∀ f, (run source steps).finish = .error f ↔ Reports source steps f) ∧
    ∀ t, (run source steps).finish = .ok t →
      (∀ i a, Makes steps i a → ∃ n ∈ t.nodes, n.id = i ∧ n.account = a) ∧
      ∀ n ∈ t.nodes,
        Makes steps n.id n.account ∧
        Text.slice? source.toList n.span.start.byte n.span.stop.byte = some n.text.toList ∧
        n.text.toByteArray = source.toByteArray.extract n.span.start.byte n.span.stop.byte ∧
        ∀ p, n.parent? = some p → ∃ front back, p.text = front ++ n.text ++ back ∧
          p.span.start.byte + front.utf8ByteSize = n.span.start.byte := by
  refine ⟨exists_finish_iff, fun f => finish_eq_error_iff, ?_⟩
  intro t finished
  refine ⟨fun i a made => Tree.exists_mem_of_makes finished made, ?_⟩
  intro n member
  have cut := Tree.slice?_of_finish finished member
  have bytes := Text.bytes_of_slice? cut
  rw [String.ofList_toList] at bytes
  exact ⟨Tree.makes_of_mem finished member, cut, bytes,
    fun p above => Tree.text_within_parent finished member above⟩

/-- The end of a node moves back behind its child, and then a node comes with all faults at once:
it ends behind the text, starts inside a character, and its parent is not there. -/
def faultySteps : List Step :=
  let mark (byte : Nat) : Mark := ⟨byte, ⟨0, byte⟩⟩
  [.push none .program ⟨mark 0, mark 5⟩,
    .push (some 0) .command ⟨mark 0, mark 3⟩,
    .push (some 1) .word ⟨mark 1, mark 3⟩,
    .setStop 1 (mark 1),
    .push (some 9) .word ⟨mark 2, mark 9⟩]

/-- The fault of node 2 is reported, and that of node 3 once node 2 has its place again. -/
theorem finish_outcome_faulty :
    Reports "aé b" faultySteps (.outsideParent 2 1) ∧
      Reports "aé b" (faultySteps ++ [.setStop 1 ⟨3, ⟨0, 3⟩⟩]) (.outOfBounds 3 2 9 5) ∧
      (∀ i a, Makes (faultySteps.take 3) i a → Fits "aé b" (faultySteps.take 3) i a) := by
  refine ⟨((finish_outcome _ _).2.1 _).mp ?_, ((finish_outcome _ _).2.1 _).mp ?_,
    (finish_outcome _ _).1.mp ?_⟩
  · rfl
  · rfl
  · exact ⟨_, rfl⟩

end Builder

end FishNav
