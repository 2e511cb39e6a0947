import FishNav.Proofs.Cursor.Agreement
import FishNav.Proofs.Script.Layout
import FishNav.Proofs.Tree.Lookup

/-!
# The node at a position

A node has the positions from its start up to its end, the end left out. In a script the nodes that
have a position are nested in one another, and the one that is found there is the deepest of them
(`has_iff`); behind the end of the text nothing is found, at the end the program. The position of
each byte of a leaf is one that the leaf has (`exists_position`), so the leaf is found at every one
of its bytes, inside a character of several bytes too (`at?_deepest`).
-/
namespace FishNav

/-- `p` is in `n`, whose end does not count. -/
def Node.Has (n : Node) (p : Position) : Prop := n.start ≤ p ∧ p < n.stop

theorem Position.origin_le (p : Position) : Position.origin ≤ p := by
  change 0 < p.line ∨ 0 = p.line ∧ 0 ≤ p.column
  omega

/-- An offset inside a text falls on one of its characters. -/
theorem Text.exists_char_at (cs : List Char) (offset : Nat) (inside : offset < byteLength cs) :
    ∃ front c back, cs = front ++ c :: back ∧ byteLength front ≤ offset ∧
      offset < byteLength front + c.utf8Size := by
  induction cs generalizing offset with
  | nil => simp at inside
  | cons c cs ih =>
    rw [byteLength_cons] at inside
    by_cases here : offset < c.utf8Size
    · exact ⟨[], c, cs, rfl, Nat.zero_le _, by simpa using here⟩
    · obtain ⟨front, d, back, rfl, low, high⟩ := ih (offset - c.utf8Size) (by omega)
      refine ⟨c :: front, d, back, rfl, ?_, ?_⟩ <;> rw [byteLength_cons] <;> omega

namespace Cursor

open Text (byteLength byteLength_append)

/-- Lines start behind the character that comes first. -/
theorem le_of_mem_newlines_cons {pos start : Nat} {c : Char} {cs : List Char}
    (member : start ∈ newlines pos (c :: cs)) : pos + c.utf8Size ≤ start := by
  unfold newlines at member
  split at member
  · next newline =>
    subst newline
    rw [show '\n'.utf8Size = 1 from rfl]
    rcases List.mem_cons.mp member with rfl | later
    · exact Nat.le_refl _
    · exact Nat.le_of_lt (bounds_of_mem_newlines later).1
  · exact Nat.le_of_lt (bounds_of_mem_newlines member).1

/-- The position of a byte of a character is behind the text before the character, and before the
text that follows it. -/
theorem position?_char (front back : List Char) (c : Char) (pos : Nat)
    (low : byteLength front ≤ pos) (high : pos < byteLength front + c.utf8Size)
    (short : pos < Position.wordSize) :
    ∃ p, position? (front ++ c :: back) pos = some p ∧
      (Mark.origin.advance front).position ≤ p ∧
      p < (Mark.origin.advance (front ++ [c])).position := by
  have before : ∀ start ∈ newlines (byteLength front) (c :: back), pos < start :=
    fun start member => Nat.lt_of_lt_of_le high (le_of_mem_newlines_cons member)
  refine ⟨_, position?_of_front front (c :: back) low before short, ?_, ?_⟩
  · rw [Position.le_def]
    exact Or.inr ⟨rfl, Nat.le_add_right _ _⟩
  · rw [Mark.advance_append, Mark.advance_cons, Mark.advance_nil, Mark.step, Position.lt_def]
    split
    · exact Or.inl (Nat.lt_succ_self _)
    · exact Or.inr ⟨rfl, by dsimp only; omega⟩

end Cursor

namespace Script

open Cst
open Node (Descends)

variable {source : String} {n m : Node} {p : Position}

theorem root_start (source : String) : (root source).start = .origin := by
  rw [(stands_root source).2.start]
  rfl

/-- Only positions behind the end of the script have no node. -/
theorem at?_root_eq_none_iff : (root source).at? p = none ↔ (root source).stop < p := by
  rw [Node.at?_eq_none_iff, root_start, or_iff_right]
  exact not_lt_of_ge p.origin_le

theorem exists_at? (inside : p ≤ (root source).stop) : ∃ m, (root source).at? p = some m := by
  apply Option.ne_none_iff_exists'.mp
  rw [Ne, at?_root_eq_none_iff]
  exact not_lt_of_ge inside

/-- What is found at a position has no child there: the search would have gone on. -/
theorem not_has_of_child {c : Node} (found : (root source).at? p = some m)
    (step : c ∈ m.children) : ¬ c.Has p := by
  intro has
  obtain ⟨way, -, last⟩ := Node.at?_spec found
  -- the first child that does not end before `p` is `c`, or stands before `c` and starts behind `p`
  have stops : (m.children.find? fun c =>
      decide (p < c.start) || decide (p < c.stop)).isSome = true :=
    List.find?_isSome.mpr ⟨c, step, by simp [has.2]⟩
  obtain ⟨d, first⟩ := Option.isSome_iff_exists.mp stops
  have behind := last d first
  obtain ⟨-, front, back, split, before⟩ := List.find?_eq_some_iff_append.mp first
  rw [split, List.mem_append, List.mem_cons] at step
  rcases step with early | rfl | late
  · have ended := before c early
    simp [has.2] at ended
  · exact absurd has.1 (not_le_of_gt behind)
  · obtain ⟨i, place⟩ := List.mem_iff_getElem?.mp late
    have order : d.stop ≤ c.start := by
      apply siblings_le (i := front.length) (j := front.length + 1 + i) way
      · simp [split]
      · rw [split, List.getElem?_append_right (by omega)]
        rw [show front.length + 1 + i - front.length = i + 1 by omega]
        exact place
      · omega
    have forward := start_le_stop (way.down (by rw [split]; simp) : Descends (root source) d)
    exact absurd (le_trans forward (le_trans order has.1)) (not_le_of_gt behind)

/-- The nodes that have a position before the end of the text are the one found there and those
above it. -/
theorem has_iff {x : Node} (before : p < (root source).stop) (found : (root source).at? p = some m)
    (inside : Descends (root source) x) : x.Has p ↔ x = m ∨ x ∈ m.ancestors := by
  obtain ⟨way, wanted, -⟩ := Node.at?_spec found
  have here : m.Has p := by
    rcases wanted with rfl | ⟨start, stop⟩
    · exact ⟨root_start source ▸ p.origin_le, before⟩
    · exact ⟨not_lt.mp start, stop⟩
  constructor
  · intro has
    rcases apart way inside with below | above | left | right
    · rcases below.cases_child with rfl | ⟨c, step, rest⟩
      · exact Or.inl rfl
      · have around := within_of_descends (way.down step) rest
        have child : c.Has p := ⟨le_trans around.1 has.1, lt_of_lt_of_le has.2 around.2⟩
        exact absurd child (not_has_of_child found step)
    · exact above.eq_or_mem_ancestors
    · exact absurd here.2 (not_lt_of_ge (le_trans left has.1))
    · exact absurd has.2 (not_lt_of_ge (le_trans right here.1))
  · rintro (rfl | above)
    · exact here
    · have around := way.of_mem_ancestors above
      have within := within_of_descends around.1 around.2
      exact ⟨le_trans within.1 here.1, lt_of_lt_of_le here.2 within.2⟩

theorem at?_root_stop (source : String) :
    (root source).at? (root source).stop = some (root source) := by
  obtain ⟨m, found⟩ := exists_at? (le_refl (root source).stop)
  obtain ⟨way, wanted, -⟩ := Node.at?_spec found
  rcases wanted with rfl | ⟨-, beyond⟩
  · exact found
  · exact absurd (within_of_descends .here way).2 (not_le_of_gt beyond)

/-- A leaf is found at every position that it has. -/
theorem at?_of_leaf (inside : Descends (root source) n) (leaf : n.children = []) (has : n.Has p) :
    (root source).at? p = some n := by
  have before := lt_of_lt_of_le has.2 (within_of_descends .here inside).2
  obtain ⟨m, found⟩ := exists_at? (le_of_lt before)
  rcases (has_iff before found inside).mp has with rfl | above
  · exact found
  · have way := ((Node.at?_spec found).1.of_mem_ancestors above).2
    rw [found, way.eq_of_leaf leaf]

/-- A node has the positions of its bytes. -/
theorem exists_position (short : Text.byteLength source.toList < Position.wordSize)
    (inside : Descends (root source) n) {offset : Nat} (low : n.span.start.byte ≤ offset)
    (high : offset < n.span.stop.byte) :
    ∃ p, Cursor.position? source.toList offset = some p ∧ n.Has p := by
  obtain ⟨front, parts, stands⟩ := exists_stands inside
  obtain ⟨back, split⟩ := stands.within
  have start : n.span.start.byte = Text.byteLength front := by
    rw [Node.span, stands.span, Mark.origin_advance_byte]
  have stop : n.span.stop.byte = Text.byteLength front + Text.byteLength (charsOfAll parts) := by
    rw [Node.span, stands.span, Mark.origin_advance_byte, Text.byteLength_append]
  obtain ⟨before, c, after, chars, left, right⟩ :=
    Text.exists_char_at (charsOfAll parts) (offset - n.span.start.byte) (by omega)
  have bound : offset < Position.wordSize := by
    rw [split, Text.byteLength_append, Text.byteLength_append] at short
    omega
  obtain ⟨p, found, least, most⟩ := Cursor.position?_char (front ++ before) (after ++ back) c
    offset (by rw [Text.byteLength_append]; omega)
    (by rw [Text.byteLength_append]; omega) bound
  refine ⟨p, ?_, ?_, ?_⟩
  · rw [split, chars]
    simpa using found
  · rw [stands.start]
    exact le_trans (position_le_append front before) least
  · rw [stands.stop, chars]
    have rest := position_le_append (front ++ before ++ [c]) after
    exact lt_of_lt_of_le most (by simpa using rest)

/-- At every position of a script the deepest node is found: behind the end of the text there is
none, at the end it is the program, and before the end the nodes that have the position are the one
found and those above it. Every byte of a leaf leads to the leaf. -/
theorem at?_deepest (source : String) (r : Node) (top : (tree source).root? = some r) :
    (∀ p, r.at? p = none ↔ r.stop < p) ∧
      (∀ p, p < r.stop → ∃ n ∈ (tree source).nodes, r.at? p = some n ∧
        ∀ m ∈ (tree source).nodes, m.start ≤ p ∧ p < m.stop ↔ m = n ∨ m ∈ n.ancestors) ∧
      r.at? r.stop = some r ∧
      (Text.byteLength source.toList < Position.wordSize →
        ∀ n ∈ (tree source).nodes, n.children = [] →
          ∀ offset, n.span.start.byte ≤ offset → offset < n.span.stop.byte →
            ∃ p, Cursor.position? source.toList offset = some p ∧ r.at? p = some n) := by
  obtain rfl : root source = r := Option.some.inj ((root?_tree source).symm.trans top)
  refine ⟨fun p => at?_root_eq_none_iff, ?_, at?_root_stop source, ?_⟩
  · intro p before
    obtain ⟨n, found⟩ := exists_at? (le_of_lt before)
    refine ⟨n, mem_nodes_iff.mpr (Node.at?_spec found).1, found, fun m member => ?_⟩
    exact has_iff before found (mem_nodes_iff.mp member)
  · intro short n member leaf offset low high
    have inside := mem_nodes_iff.mp member
    obtain ⟨p, position, has⟩ := exists_position short inside low high
    exact ⟨p, position, at?_of_leaf inside leaf has⟩

/-- A string over two lines, with a character of two bytes in the first one. Byte 7 is the second
byte of that character; column 99 of the first line is behind the end of the line and in the
string. -/
theorem at?_deepest_string :
    ∃ r n m, (tree "echo 'é\nb' $x").root? = some r ∧ n ∈ (tree "echo 'é\nb' $x").nodes ∧
      n.kind = .singleQuoteString ∧ n.children = [] ∧
      Text.byteLength "echo 'é\nb' $x".toList < Position.wordSize ∧
      n.span.start.byte ≤ 7 ∧ 7 < n.span.stop.byte ∧
      (∃ p, Cursor.position? "echo 'é\nb' $x".toList 7 = some p ∧ r.at? p = some n) ∧
      (⟨0, 99⟩ : Position) < r.stop ∧ r.at? ⟨0, 99⟩ = some m ∧ (n = m ∨ n ∈ m.ancestors) := by
  have found : ((tree "echo 'é\nb' $x").nodes.find? fun n =>
      n.kind == .singleQuoteString && n.children.isEmpty && decide (n.span.start.byte ≤ 7) &&
        decide (7 < n.span.stop.byte) && decide (n.start ≤ ⟨0, 99⟩) &&
        decide (⟨0, 99⟩ < n.stop)).isSome = true := by decide +kernel
  obtain ⟨n, found⟩ := Option.isSome_iff_exists.mp found
  have member := List.mem_of_find?_eq_some found
  have shape := List.find?_some found
  simp only [Bool.and_eq_true, beq_iff_eq, List.isEmpty_iff, decide_eq_true_eq] at shape
  obtain ⟨⟨⟨⟨⟨kind, leaf⟩, low⟩, high⟩, start⟩, stop⟩ := shape
  have short : Text.byteLength "echo 'é\nb' $x".toList < Position.wordSize := by decide
  obtain ⟨-, deepest, -, bytes⟩ := at?_deepest "echo 'é\nb' $x" _ (root?_tree _)
  have before := lt_of_lt_of_le stop (within_of_descends .here (mem_nodes_iff.mp member)).2
  obtain ⟨m, -, here, nested⟩ := deepest ⟨0, 99⟩ before
  exact ⟨_, n, m, root?_tree _, member, kind, leaf, short, low, high,
    bytes short n member leaf 7 low high, before, here, (nested n member).mp ⟨start, stop⟩⟩

end Script

end FishNav
