import FishNav.Text.Bytes
import FishNav.Text.Mark
import FishNav.Text.Split
import Mathlib.Order.Defs.LinearOrder

/-!
# Offsets and marks of a text

Cutting a text at the offsets of a split into parts gives the parts back, and a cut succeeds only
where a split has its ends (`dropBytes?_eq_some_iff`, `slice?_eq_some_iff`). What is cut out of a
string are its bytes between the two offsets (`bytes_of_slice?`). Moving a mark over characters
moves both its offset and its position forward (`Mark.position_lt_advance`). A text is split at a
separator by splitting what is before it and what is behind it (`split_append`).
-/
namespace FishNav

namespace Text

@[simp] theorem byteLength_nil : byteLength [] = 0 := rfl

@[simp] theorem byteLength_cons (c : Char) (cs : List Char) :
    byteLength (c :: cs) = c.utf8Size + byteLength cs := rfl

@[simp] theorem byteLength_append (xs ys : List Char) :
    byteLength (xs ++ ys) = byteLength xs + byteLength ys := by
  induction xs with
  | nil => simp
  | cons c cs ih => simp [ih, Nat.add_assoc]

theorem byteLength_pos {cs : List Char} (some : cs ≠ []) : 0 < byteLength cs := by
  cases cs with
  | nil => exact absurd rfl some
  | cons c cs => exact Nat.add_pos_left c.utf8Size_pos _

/-- The step that both cuts share: a first character that fits is taken whole. -/
theorem exists_succ_eq_byteLength_cons (c : Char) (cs : List Char) :
    ∃ n, byteLength (c :: cs) = n + 1 ∧ c.utf8Size ≤ n + 1 ∧
      n + 1 - c.utf8Size = byteLength cs := by
  have size := c.utf8Size_pos
  exact ⟨c.utf8Size + byteLength cs - 1, by rw [byteLength_cons]; omega, by omega, by omega⟩

theorem dropBytes?_append (xs ys : List Char) :
    dropBytes? (byteLength xs) (xs ++ ys) = some ys := by
  induction xs with
  | nil => simp [dropBytes?]
  | cons c cs ih =>
    obtain ⟨n, eq, fits, rest⟩ := exists_succ_eq_byteLength_cons c cs
    rw [eq, List.cons_append, dropBytes?, if_pos fits, rest, ih]

theorem takeBytes?_append (xs ys : List Char) :
    takeBytes? (byteLength xs) (xs ++ ys) = some xs := by
  induction xs with
  | nil => simp [takeBytes?]
  | cons c cs ih =>
    obtain ⟨n, eq, fits, rest⟩ := exists_succ_eq_byteLength_cons c cs
    rw [eq, List.cons_append, takeBytes?, if_pos fits, rest, ih, Option.map_some]

/-- Offsets at which a text can be cut are the lengths of its front parts. -/
theorem dropBytes?_eq_some_iff {n : Nat} {cs rest : List Char} :
    dropBytes? n cs = some rest ↔ ∃ front, cs = front ++ rest ∧ n = byteLength front := by
  constructor
  · intro cut
    fun_induction dropBytes? n cs with
    | case1 cs => exact ⟨[], by simpa using cut, rfl⟩
    | case2 n => cases cut
    | case3 n c cs fits ih =>
      obtain ⟨front, rfl, length⟩ := ih cut
      exact ⟨c :: front, rfl, by rw [byteLength_cons]; omega⟩
    | case4 n c cs fits => cases cut
  · rintro ⟨front, rfl, rfl⟩
    exact dropBytes?_append front rest

/-- An offset takes a front of the text exactly if it is the length of that front. -/
theorem takeBytes?_eq_some_iff {n : Nat} {cs taken : List Char} :
    takeBytes? n cs = some taken ↔ ∃ back, cs = taken ++ back ∧ n = byteLength taken := by
  constructor
  · intro cut
    fun_induction takeBytes? n cs generalizing taken with
    | case1 cs => exact ⟨cs, by simp [← Option.some.inj cut], by simp [← Option.some.inj cut]⟩
    | case2 n => cases cut
    | case3 n c cs fits ih =>
      obtain ⟨more, found, rfl⟩ := Option.map_eq_some_iff.mp cut
      obtain ⟨back, rfl, length⟩ := ih found
      exact ⟨back, rfl, by rw [byteLength_cons]; omega⟩
    | case4 n c cs fits => cases cut
  · rintro ⟨back, rfl, rfl⟩
    exact takeBytes?_append taken back

/-- The offsets around a stretch of a text cut it out. -/
theorem slice?_append (front middle back : List Char) :
    slice? (front ++ middle ++ back) (byteLength front) (byteLength (front ++ middle)) =
      some middle := by
  have length : byteLength (front ++ middle) - byteLength front = byteLength middle := by simp
  rw [slice?, if_pos (by simp), List.append_assoc, dropBytes?_append, Option.bind_some, length,
    takeBytes?_append]

/-- A cut succeeds only between characters. -/
theorem slice?_eq_some_iff {cs middle : List Char} {a b : Nat} :
    slice? cs a b = some middle ↔
      ∃ front back, cs = front ++ middle ++ back ∧ a = byteLength front ∧
        b = byteLength (front ++ middle) := by
  constructor
  · intro cut
    rw [slice?] at cut
    split at cut
    · next le =>
      obtain ⟨rest, dropped, taken⟩ := Option.bind_eq_some_iff.mp cut
      obtain ⟨front, rfl, rfl⟩ := dropBytes?_eq_some_iff.mp dropped
      obtain ⟨back, rfl, length⟩ := takeBytes?_eq_some_iff.mp taken
      exact ⟨front, back, (List.append_assoc _ _ _).symm, rfl, by rw [byteLength_append]; omega⟩
    · cases cut
  · rintro ⟨front, back, rfl, rfl, rfl⟩
    exact slice?_append front middle back

theorem isBoundary_append (front back : List Char) :
    isBoundary (front ++ back) (byteLength front) = true := by
  rw [isBoundary, dropBytes?_append, Option.isSome_some]

/-! ### Strings -/

theorem byteLength_toList (s : String) : byteLength s.toList = s.utf8ByteSize := by
  have counted : ∀ cs : List Char, byteLength cs = (String.ofList cs).utf8ByteSize := by
    intro cs
    induction cs with
    | nil => rfl
    | cons c cs ih =>
      rw [byteLength_cons, ih, String.ofList_cons, String.utf8ByteSize_append,
        String.utf8ByteSize_singleton]
  rw [counted, String.ofList_toList]

/-- The boundaries of a text are the valid positions of the string. -/
theorem isBoundary_iff {s : String} {n : Nat} :
    isBoundary s.toList n = true ↔ String.Pos.Raw.IsValid s ⟨n⟩ := by
  rw [isBoundary, Option.isSome_iff_exists, String.Pos.Raw.isValid_iff_exists_append]
  constructor
  · rintro ⟨rest, cut⟩
    obtain ⟨front, split, length⟩ := dropBytes?_eq_some_iff.mp cut
    refine ⟨String.ofList front, String.ofList rest, ?_, ?_⟩
    · rw [← String.ofList_append, ← split, String.ofList_toList]
    · rw [String.rawEndPos, ← byteLength_toList, String.toList_ofList, length]
  · rintro ⟨front, rest, rfl, same⟩
    refine ⟨rest.toList, dropBytes?_eq_some_iff.mpr ⟨front.toList, String.toList_append, ?_⟩⟩
    rw [byteLength_toList]
    exact congrArg String.Pos.Raw.byteIdx same

/-- Of two front parts of a text the one with more bytes starts with the other. -/
theorem exists_append_of_byteLength_le {front back front' back' : List Char}
    (split : front ++ back = front' ++ back') (le : byteLength front ≤ byteLength front') :
    ∃ more, front' = front ++ more := by
  rcases List.append_eq_append_iff.mp split with ⟨more, rfl, -⟩ | ⟨more, rfl, -⟩
  · exact ⟨more, rfl⟩
  · rw [byteLength_append] at le
    have none : more = [] := by
      by_contra some
      have := byteLength_pos some
      omega
    exact ⟨[], by rw [none, List.append_nil, List.append_nil]⟩

/-- A text is cut between any two boundaries. -/
theorem exists_slice? {cs : List Char} {a b : Nat} (order : a ≤ b)
    (start : isBoundary cs a = true) (stop : isBoundary cs b = true) :
    ∃ middle, slice? cs a b = some middle := by
  obtain ⟨rest, cut⟩ := Option.isSome_iff_exists.mp start
  obtain ⟨rest', cut'⟩ := Option.isSome_iff_exists.mp stop
  obtain ⟨front, rfl, rfl⟩ := dropBytes?_eq_some_iff.mp cut
  obtain ⟨front', split, rfl⟩ := dropBytes?_eq_some_iff.mp cut'
  obtain ⟨middle, rfl⟩ := exists_append_of_byteLength_le split order
  exact ⟨middle, slice?_eq_some_iff.mpr ⟨front, rest', split, rfl, rfl⟩⟩

/-- What is cut out of a text are its bytes between the two offsets. -/
theorem bytes_of_slice? {s : String} {middle : List Char} {a b : Nat}
    (cut : slice? s.toList a b = some middle) :
    (String.ofList middle).toByteArray = s.toByteArray.extract a b := by
  obtain ⟨front, back, split, rfl, rfl⟩ := slice?_eq_some_iff.mp cut
  have size : ∀ cs : List Char, byteLength cs = (String.ofList cs).toByteArray.size := by
    intro cs
    rw [String.size_toByteArray, ← byteLength_toList, String.toList_ofList]
  have whole : s.toByteArray = ((String.ofList front).toByteArray ++
      (String.ofList middle).toByteArray) ++ (String.ofList back).toByteArray := by
    rw [← String.toByteArray_append, ← String.toByteArray_append, ← String.ofList_append,
      ← String.ofList_append, ← split, String.ofList_toList]
  have both : byteLength (front ++ middle) =
      ((String.ofList front).toByteArray ++ (String.ofList middle).toByteArray).size := by
    rw [size, String.ofList_append, String.toByteArray_append]
  rw [whole, both, ByteArray.extract_append_size_left]
  exact (ByteArray.extract_append_eq_right (size front) (by rw [ByteArray.size_append])).symm

/-- A cut inside another one is a part of it, as far in as it starts later. -/
theorem exists_of_slice?_within {cs inner outer : List Char} {a b a' b' : Nat}
    (cut : slice? cs a b = some inner) (around : slice? cs a' b' = some outer)
    (start : a' ≤ a) (stop : b ≤ b') :
    ∃ front back, outer = front ++ inner ++ back ∧ a' + byteLength front = a := by
  obtain ⟨before, after, split, rfl, rfl⟩ := slice?_eq_some_iff.mp cut
  obtain ⟨before', after', split', rfl, rfl⟩ := slice?_eq_some_iff.mp around
  have same := split'.symm.trans split
  obtain ⟨back, whole⟩ := exists_append_of_byteLength_le same.symm stop
  rw [List.append_assoc, List.append_assoc] at same
  obtain ⟨front, rfl⟩ := exists_append_of_byteLength_le same start
  refine ⟨front, back, ?_, by rw [byteLength_append]⟩
  rw [List.append_assoc, List.append_assoc, List.append_cancel_left_eq] at whole
  rw [whole, List.append_assoc]

/-! ### Pieces between separators -/

variable {separator : Char}

theorem split_ne_nil (cs : List Char) : split separator cs ≠ [] := by
  cases cs with
  | nil => exact List.cons_ne_nil _ _
  | cons c cs =>
    rw [split]
    split
    · exact List.cons_ne_nil _ _
    · cases split separator cs <;> exact List.cons_ne_nil _ _

theorem split_of_not_mem {cs : List Char} (free : separator ∉ cs) : split separator cs = [cs] := by
  induction cs with
  | nil => rfl
  | cons c cs ih =>
    rw [List.mem_cons, not_or] at free
    rw [split, if_neg (Ne.symm free.1), ih free.2]

theorem split_append (front back : List Char) :
    split separator (front ++ separator :: back) =
      split separator front ++ split separator back := by
  induction front with
  | nil => rw [List.nil_append, split, split, if_pos rfl, List.singleton_append]
  | cons c front ih =>
    rw [List.cons_append, split, split]
    by_cases cut : c = separator
    · rw [if_pos cut, if_pos cut, ih, List.cons_append]
    · rw [if_neg cut, if_neg cut, ih]
      cases pieces : split separator front with
      | nil => exact absurd pieces (split_ne_nil front)
      | cons piece pieces => rfl

end Text

namespace Position

/-- Positions are ordered as words of two letters. -/
instance : LinearOrder Position where
  le_refl p := le_def.mpr (by omega)
  le_trans p q r := by simp only [le_def]; omega
  lt_iff_le_not_ge p q := by simp only [le_def, lt_def]; omega
  le_antisymm p q := by
    simp only [le_def]
    intro forth back
    cases p
    cases q
    simp only [mk.injEq]
    simp only at forth back
    omega
  le_total p q := by simp only [le_def]; omega
  toDecidableLE := inferInstance

end Position

namespace Mark

@[simp] theorem advance_nil (m : Mark) : m.advance [] = m := rfl

@[simp] theorem advance_cons (m : Mark) (c : Char) (cs : List Char) :
    m.advance (c :: cs) = (m.step c).advance cs := rfl

theorem advance_append (m : Mark) (xs ys : List Char) :
    m.advance (xs ++ ys) = (m.advance xs).advance ys := List.foldl_append

theorem advance_byte (m : Mark) (cs : List Char) :
    (m.advance cs).byte = m.byte + Text.byteLength cs := by
  induction cs generalizing m with
  | nil => simp
  | cons c cs ih => simp [ih, step, Nat.add_assoc]

theorem origin_advance_byte (cs : List Char) :
    (origin.advance cs).byte = Text.byteLength cs := by
  rw [advance_byte, origin, Nat.zero_add]

/-- Every character moves the position forward, a newline too. -/
theorem position_lt_step (m : Mark) (c : Char) : m.position < (m.step c).position := by
  have size := c.utf8Size_pos
  rw [Position.lt_def, step]
  split
  · exact Or.inl (Nat.lt_succ_self _)
  · exact Or.inr ⟨rfl, Nat.lt_add_of_pos_right size⟩

theorem position_le_advance (m : Mark) (cs : List Char) :
    m.position ≤ (m.advance cs).position := by
  induction cs generalizing m with
  | nil => exact le_refl _
  | cons c cs ih => exact le_trans (le_of_lt (position_lt_step m c)) (ih (m.step c))

theorem position_lt_advance (m : Mark) {cs : List Char} (some : cs ≠ []) :
    m.position < (m.advance cs).position := by
  cases cs with
  | nil => exact absurd rfl some
  | cons c cs => exact lt_of_lt_of_le (position_lt_step m c) (position_le_advance (m.step c) cs)

end Mark

end FishNav
