import FishNav.Proofs.Text
import FishNav.Text.Lines
import FishNav.Text.Split
import Mathlib.Data.List.Induction
import Mathlib.Data.List.TakeWhile

/-!
# Positions and offsets

Positions are counted from the front of a text and read back by looking for the start of their
line. The two are inverse at every boundary of the text (`offset?_advance`), behind a newline, on an
empty line and at the end too, so a range gives back the text it was counted over
(`inRange?_advance`). A mark stays on its line until a newline comes (`position_advance_line`). The
lines are the pieces between the newlines (`lineLength_eq`).
-/
namespace FishNav.Text

/-- No newline is in `line`. -/
def IsLine (line : List Char) : Prop := ∀ c ∈ line, (c != '\n') = true

theorem IsLine.dropWhile {line : List Char} (one : IsLine line) (rest : List Char) :
    (line ++ '\n' :: rest).dropWhile (· != '\n') = '\n' :: rest := by
  rw [List.dropWhile_append_of_pos one]
  rfl

theorem IsLine.snoc {line : List Char} (one : IsLine line) {c : Char} (other : c ≠ '\n') :
    IsLine (line ++ [c]) := by
  intro d member
  rcases List.mem_append.mp member with inside | last
  · exact one d inside
  · rw [List.mem_singleton.mp last]
    exact bne_iff_ne.mpr other

/-- Behind the newline that ends a line the next one starts. -/
theorem fromLine?_succ {n : Nat} {cs line rest : List Char} (one : IsLine line)
    (found : fromLine? n cs = some (line ++ '\n' :: rest)) : fromLine? (n + 1) cs = some rest := by
  induction n generalizing cs with
  | zero =>
    unfold fromLine? at found
    rw [fromLine?, Option.some.inj found, one.dropWhile]
    rfl
  | succ n ih =>
    rw [fromLine?] at found ⊢
    split at found
    · cases found
    · exact ih found

/-- The mark behind `front` is in the last line of `front`, and its column counts the bytes of that
line. -/
theorem exists_last_line (front : List Char) :
    ∃ above line, front = above ++ line ∧ IsLine line ∧
      (Mark.origin.advance front).position.column = byteLength line ∧
      ∀ back, fromLine? (Mark.origin.advance front).position.line (front ++ back) =
        some (line ++ back) := by
  -- from the front on: a newline opens the next line, any other character is added to the last one
  induction front using List.reverseRecOn with
  | nil => exact ⟨[], [], rfl, by simp [IsLine], rfl, fun back => rfl⟩
  | append_singleton front c ih =>
    obtain ⟨above, line, rfl, one, column, lines⟩ := ih
    rw [Mark.advance_append, Mark.advance_cons, Mark.advance_nil]
    unfold Mark.step
    by_cases newline : c = '\n'
    · subst newline
      refine ⟨above ++ line ++ ['\n'], [], by simp, by simp [IsLine], rfl, ?_⟩
      intro back
      rw [List.append_assoc (above ++ line)]
      exact fromLine?_succ one (lines ('\n' :: back))
    · rw [if_neg newline]
      refine ⟨above, line ++ [c], by simp, one.snoc newline, ?_, ?_⟩
      · rw [byteLength_append, column]
        rfl
      · intro back
        have next := lines (c :: back)
        simpa using next

/-- The line goes at least up to the mark. -/
theorem column_le_lineLength (front back : List Char) :
    (Mark.origin.advance front).position.column ≤
      lineLength (Mark.origin.advance front).position.line (front ++ back) := by
  obtain ⟨above, line, -, one, column, lines⟩ := exists_last_line front
  rw [lineLength, lines back, column]
  dsimp only
  rw [List.takeWhile_append_of_pos one, byteLength_append]
  exact Nat.le_add_right _ _

/-- A mark that is moved over a part of a line stays on it. -/
theorem position_advance_line {line : List Char} (one : IsLine line) (m : Mark) :
    (m.advance line).position = ⟨m.position.line, m.position.column + byteLength line⟩ := by
  induction line generalizing m with
  | nil => rfl
  | cons c line ih =>
    obtain ⟨other, rest⟩ := List.forall_mem_cons.mp one
    rw [Mark.advance_cons, ih rest, Mark.step, if_neg (bne_iff_ne.mp other), byteLength_cons,
      Nat.add_assoc]

/-- The offset of the position behind `front` is the length of `front`. -/
theorem offset?_advance (front back : List Char) :
    offset? (front ++ back) (Mark.origin.advance front).position = some (byteLength front) := by
  obtain ⟨above, line, rfl, one, column, lines⟩ := exists_last_line front
  unfold offset?
  rw [lines back, column, Option.map_some, List.takeWhile_append_of_pos one]
  simp only [byteLength_append, Option.some.injEq]
  omega

/-- Between the positions at its ends stands the text that was counted. -/
theorem inRange?_advance (front middle back : List Char) :
    inRange? (front ++ middle ++ back)
      ⟨(Mark.origin.advance front).position, (Mark.origin.advance (front ++ middle)).position⟩ =
        some middle := by
  have start : offset? (front ++ middle ++ back) (Mark.origin.advance front).position =
      some (byteLength front) := by
    rw [List.append_assoc]
    exact offset?_advance front (middle ++ back)
  have stop := offset?_advance (front ++ middle) back
  have forward : max (byteLength (front ++ middle)) (byteLength front) =
      byteLength (front ++ middle) := by
    rw [byteLength_append]
    omega
  unfold inRange?
  rw [start, stop, Option.bind_some, Option.bind_some, forward, slice?_append]

/-! ### Lines as pieces -/

theorem isLine_or_append (cs : List Char) :
    IsLine cs ∨ ∃ line rest, IsLine line ∧ cs = line ++ '\n' :: rest := by
  by_cases newline : '\n' ∈ cs
  · obtain ⟨line, rest, rfl, absent⟩ := List.eq_append_cons_of_mem newline
    refine Or.inr ⟨line, rest, fun c member => ?_, rfl⟩
    exact bne_iff_ne.mpr (ne_of_mem_of_not_mem member absent)
  · exact Or.inl fun c member => bne_iff_ne.mpr (ne_of_mem_of_not_mem member newline)

theorem IsLine.split_eq {line : List Char} (one : IsLine line) : split '\n' line = [line] :=
  split_of_not_mem fun newline => bne_iff_ne.mp (one _ newline) rfl

theorem IsLine.split_append {line : List Char} (one : IsLine line) (rest : List Char) :
    split '\n' (line ++ '\n' :: rest) = line :: split '\n' rest := by
  rw [Text.split_append, one.split_eq, List.singleton_append]

theorem lineLength_zero (cs : List Char) :
    lineLength 0 cs = byteLength (cs.takeWhile (· != '\n')) := rfl

/-- The length of a line is that of the piece between two newlines. -/
theorem lineLength_eq (n : Nat) (cs : List Char) :
    lineLength n cs = byteLength ((split '\n' cs)[n]?.getD []) := by
  induction n generalizing cs with
  | zero =>
    rcases isLine_or_append cs with one | ⟨line, rest, one, rfl⟩
    · rw [one.split_eq, lineLength_zero, List.takeWhile_eq_self_iff.mpr one]
      rfl
    · rw [one.split_append, lineLength_zero, List.takeWhile_append_of_pos one]
      simp
  | succ n ih =>
    rcases isLine_or_append cs with one | ⟨line, rest, one, rfl⟩
    · rw [one.split_eq, lineLength, fromLine?, List.dropWhile_eq_nil_iff.mpr one]
      rfl
    · rw [one.split_append, List.getElem?_cons_succ, ← ih, lineLength, lineLength, fromLine?,
        one.dropWhile]

end FishNav.Text
