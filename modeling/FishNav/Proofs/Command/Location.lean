import FishNav.Command.Location
import Mathlib.Data.List.Chain
import Mathlib.Data.List.DropRight
import Mathlib.Tactic.Common

/-!
# Locations and their written form

A text writes a location (`Written`) if it has a file, a colon and a line, and behind another colon
a column if one likes; the file goes up to the first colon behind which a number could start, a
drive apart. These are the texts that are read (`parse_eq_ok_iff`). The printed form of a location
that was read is written in this way again, with the same cut: neither the drive nor the colons of
the file depend on what is printed behind it (`parse_stable`).
-/
namespace FishNav

namespace Text

theorem trim_eq_self {cs : List Char} (first : ∀ c ∈ cs.head?, isBlank c = false)
    (last : ∀ c ∈ cs.getLast?, isBlank c = false) : trim cs = cs := by
  have front : cs.dropWhile isBlank = cs := by
    rw [List.dropWhile_eq_self_iff]
    intro some
    rw [first _ (List.head?_eq_getElem? ▸ List.getElem?_eq_getElem some)]
    exact Bool.false_ne_true
  have back : cs.rdropWhile isBlank = cs := by
    rw [List.rdropWhile_eq_self_iff]
    intro some
    rw [last _ (List.getLast?_eq_some_getLast some)]
    exact Bool.false_ne_true
  rw [trim, front]
  exact back

theorem isBlank_of_isDigit {c : Char} (digit : c.isDigit = true) : isBlank c = false := by
  obtain ⟨low, high⟩ : 48 ≤ c.toNat ∧ c.toNat ≤ 57 := Char.isDigit_iff_toNat.mp digit
  simp only [isBlank, blankRuns, List.any_cons, List.any_nil, Bool.or_eq_false_iff,
    Bool.and_eq_false_iff, decide_eq_false_iff_not, and_true]
  omega

theorem first_trim (cs : List Char) : ∀ c ∈ (trim cs).head?, isBlank c = false := by
  intro c first
  obtain ⟨rest, split⟩ : trim cs <+: cs.dropWhile isBlank := List.rdropWhile_prefix _ _
  have head : (cs.dropWhile isBlank).head? = some c := by
    rw [← split, List.head?_append, first, Option.some_or]
  have stops := List.head?_dropWhile_not isBlank cs
  rwa [head] at stops

end Text

namespace FilePosition

/-! ### Numbers -/

/-- Digits, and a plus sign before them if one likes, that write the 32-bit word `n`. -/
def Numeral (cs : List Char) (n : Nat) : Prop :=
  ∃ digits, (cs = digits ∨ cs = '+' :: digits) ∧ digits ≠ [] ∧ (∀ c ∈ digits, c.isDigit = true) ∧
    Nat.ofDigitChars 10 digits 0 = n ∧ n < Position.wordSize

theorem foldl_eq_ofDigitChars (digits : List Char) :
    digits.foldl (fun n c => n * 10 + (c.toNat - '0'.toNat)) 0 = Nat.ofDigitChars 10 digits 0 := by
  rw [Nat.ofDigitChars_eq_foldl]
  simp only [Nat.mul_comm]

/-- The reader of numbers accepts the numerals of 32-bit words, and no other text. -/
theorem number?_eq_some_iff {cs : List Char} {n : Nat} : number? cs = some n ↔ Numeral cs n := by
  have unsigned : ∀ digits : List Char,
      (if digits.isEmpty || !digits.all Char.isDigit then none
        else if Nat.ofDigitChars 10 digits 0 < Position.wordSize then
          some (Nat.ofDigitChars 10 digits 0)
        else none) = some n ↔
        digits ≠ [] ∧ (∀ c ∈ digits, c.isDigit = true) ∧ Nat.ofDigitChars 10 digits 0 = n ∧
          n < Position.wordSize := by
    intro digits
    simp only [Bool.or_eq_true, List.isEmpty_iff, Bool.not_eq_true', Option.ite_none_left_eq_some,
      Option.ite_none_right_eq_some, not_or, Bool.not_eq_false, List.all_eq_true,
      Option.some.injEq]
    grind
  unfold number?
  simp only [foldl_eq_ofDigitChars]
  rw [unsigned]
  split
  · next digits =>
    constructor
    · intro reads
      exact ⟨digits, Or.inr rfl, reads⟩
    · rintro ⟨digits', rfl | same, some, all, value⟩
      · -- a plus sign is no digit
        exact absurd (all '+' List.mem_cons_self) (by decide)
      · obtain rfl := (List.cons.inj same).2
        exact ⟨some, all, value⟩
  · next unsigned =>
    constructor
    · intro reads
      exact ⟨cs, Or.inl rfl, reads⟩
    · rintro ⟨digits, rfl | signed, reads⟩
      · exact reads
      · exact absurd signed (unsigned digits)

theorem toString_ne_nil (n : Nat) : (toString n).toList ≠ [] := by
  rw [Nat.toString_eq_ofList_toDigits, String.toList_ofList]
  exact Nat.toDigits_ne_nil

theorem isDigit_of_mem_toString {n : Nat} {c : Char} (member : c ∈ (toString n).toList) :
    c.isDigit = true := by
  rw [Nat.toString_eq_ofList_toDigits, String.toList_ofList] at member
  exact Nat.isDigit_of_mem_toDigits (by decide) (by decide) member

theorem numeral_toString {n : Nat} (word : n < Position.wordSize) :
    Numeral (toString n).toList n := by
  refine ⟨_, Or.inl rfl, toString_ne_nil n, fun c => isDigit_of_mem_toString, ?_, word⟩
  rw [Nat.toString_eq_ofList_toDigits, String.toList_ofList]
  exact Nat.ofDigitChars_ten_toDigits

/-! ### Files -/

/-- May stand first in a number: a digit or a minus sign. -/
def opensNumber (c : Char) : Bool := c.isDigit || c == '-'

/-- No colon comes before a character with which a number may start. -/
def Unbroken (cs : List Char) : Prop := cs.IsChain fun a b => a = ':' → opensNumber b = false

/-- The first colon of `cs` behind which a number may start is between `file` and `rest`. -/
structure Cuts (cs file rest : List Char) : Prop where
  split : cs = file ++ ':' :: rest
  unbroken : Unbroken file
  opens : ∃ c ∈ rest.head?, opensNumber c = true

/-- A character that does not cut belongs to the file. -/
theorem Cuts.cons_iff {c : Char} {cs file rest : List Char}
    (stays : c = ':' → ∀ d ∈ cs.head?, opensNumber d = false) :
    Cuts (c :: cs) file rest ↔ ∃ tail, file = c :: tail ∧ Cuts cs tail rest := by
  constructor
  · rintro ⟨split, unbroken, d, first, opens⟩
    cases file with
    | nil =>
      obtain ⟨rfl, rfl⟩ := List.cons.inj split
      exact absurd opens (Bool.eq_false_iff.mp (stays rfl d first))
    | cons a tail =>
      obtain ⟨rfl, rfl⟩ := List.cons.inj split
      exact ⟨tail, rfl, rfl, (List.isChain_cons.mp unbroken).2, d, first, opens⟩
  · rintro ⟨tail, rfl, rfl, unbroken, opens⟩
    refine ⟨rfl, List.isChain_cons.mpr ⟨fun d first colon => ?_, unbroken⟩, opens⟩
    apply stays colon
    rw [List.head?_append, first, Option.some_or]
    rfl

theorem map_append_eq_some_iff {front file rest : List Char}
    {found : Option (List Char × List Char)} :
    (found.map fun cut => (front ++ cut.1, cut.2)) = some (file, rest) ↔
      ∃ tail, file = front ++ tail ∧ found = some (tail, rest) := by
  rw [Option.map_eq_some_iff]
  constructor
  · rintro ⟨⟨tail, rest⟩, rfl, same⟩
    cases same
    exact ⟨tail, rfl, rfl⟩
  · rintro ⟨tail, rfl, rfl⟩
    exact ⟨(tail, rest), rfl, rfl⟩

/-- A text is cut at the first colon that may have a number behind it. -/
theorem cut?_eq_some_iff {cs file rest : List Char} :
    cut? cs = some (file, rest) ↔ Cuts cs file rest := by
  fun_induction cut? cs generalizing file with
  | case1 =>
    constructor
    · intro cut
      cases cut
    · rintro ⟨split, -, -⟩
      simp at split
  | case2 c cs opens =>
    constructor
    · intro cut
      cases cut
      exact ⟨rfl, .nil, c, rfl, opens⟩
    · rintro ⟨split, unbroken, -⟩
      -- the file ends before the first colon, or it would be broken there
      rcases file with _ | ⟨a, _ | ⟨b, file⟩⟩
      · obtain rfl := (List.cons.inj split).2
        rfl
      · obtain rfl := (List.cons.inj (List.cons.inj split).2).1
        cases opens
      · obtain ⟨rfl, rest⟩ := List.cons.inj split
        obtain ⟨rfl, -⟩ := List.cons.inj rest
        have free := (List.isChain_cons_cons.mp unbroken).1 rfl
        exact absurd opens (Bool.eq_false_iff.mp free)
  | case3 c cs plain ih =>
    rw [Cuts.cons_iff]
    · apply (@map_append_eq_some_iff [':'] _ _ _).trans
      exact exists_congr fun tail => and_congr_right fun _ => ih
    · intro _ d first
      obtain rfl := Option.some.inj first
      exact Bool.eq_false_iff.mpr plain
  | case4 c cs other ih =>
    rw [Cuts.cons_iff]
    · apply (@map_append_eq_some_iff [c] _ _ _).trans
      exact exists_congr fun tail => and_congr_right fun _ => ih
    · intro colon d first
      cases cs with
      | nil => cases first
      | cons e cs => exact absurd rfl (other e cs colon)

/-- The part of a file in which colons are looked at: all of it but a drive. -/
def behindDrive : List Char → List Char
  | drive :: ':' :: tail => if drive.isAlpha then tail else drive :: ':' :: tail
  | cs => cs

/-- A name of a file that can be told from the numbers behind it. A letter alone cannot: with the
colon it would be a drive. -/
structure IsFile (file : List Char) : Prop where
  unbroken : Unbroken (behindDrive file)
  letter : ∀ c, file = [c] → c.isAlpha = false

theorem isFile_drive {drive : Char} (letter : drive.isAlpha = true) {tail : List Char} :
    IsFile (drive :: ':' :: tail) ↔ Unbroken tail := by
  have behind : behindDrive (drive :: ':' :: tail) = tail := if_pos letter
  constructor
  · intro file
    exact behind ▸ file.unbroken
  · intro unbroken
    exact ⟨behind.symm ▸ unbroken, by simp⟩

/-- Without a letter and a colon in front all colons of a file are looked at. -/
theorem isFile_iff {file rest : List Char} (some : rest ≠ [])
    (other : ∀ drive tail, file ++ ':' :: rest = drive :: ':' :: tail → tail ≠ [] →
      drive.isAlpha = false) :
    IsFile file ↔ Unbroken file := by
  have behind : behindDrive file = file := by
    unfold behindDrive
    split
    · next drive tail =>
      rw [if_neg (Bool.eq_false_iff.mp (other drive _ rfl (by simp)))]
    · rfl
  constructor
  · intro isFile
    exact behind ▸ isFile.unbroken
  · intro unbroken
    refine ⟨behind.symm ▸ unbroken, ?_⟩
    rintro c rfl
    exact other c rest rfl some

theorem cutFile?_drive {drive : Char} (letter : drive.isAlpha = true) {tail : List Char}
    (some : tail ≠ []) :
    cutFile? (drive :: ':' :: tail) =
      (cut? tail).map fun cut => ([drive, ':'] ++ cut.1, cut.2) := by
  obtain ⟨c, tail, rfl⟩ := List.exists_cons_of_ne_nil some
  exact if_pos letter

theorem cutFile?_plain {cs : List Char}
    (other : ∀ drive tail, cs = drive :: ':' :: tail → tail ≠ [] → drive.isAlpha = false) :
    cutFile? cs = cut? cs := by
  unfold cutFile?
  split
  · next drive c tail => rw [other drive (c :: tail) rfl (List.cons_ne_nil c tail)]; rfl
  · rfl

/-- The cut between file and numbers, with and without a drive, in one statement. -/
theorem cutFile?_eq_some_iff {cs file rest : List Char} :
    cutFile? cs = some (file, rest) ↔
      cs = file ++ ':' :: rest ∧ IsFile file ∧ ∃ c ∈ rest.head?, opensNumber c = true := by
  by_cases driven : ∃ drive tail, cs = drive :: ':' :: tail ∧ tail ≠ [] ∧ drive.isAlpha = true
  · obtain ⟨drive, tail, rfl, some, letter⟩ := driven
    rw [cutFile?_drive letter some, map_append_eq_some_iff]
    constructor
    · rintro ⟨inner, rfl, cut⟩
      obtain ⟨rfl, unbroken, opens⟩ := cut?_eq_some_iff.mp cut
      exact ⟨rfl, (isFile_drive letter).mpr unbroken, opens⟩
    · rintro ⟨split, isFile, opens⟩
      rcases file with _ | ⟨a, _ | ⟨b, inner⟩⟩
      · obtain ⟨rfl, -⟩ := List.cons.inj split
        cases letter
      · obtain ⟨rfl, -⟩ := List.cons.inj split
        exact absurd letter (Bool.eq_false_iff.mp (isFile.letter drive rfl))
      · obtain ⟨rfl, behind⟩ := List.cons.inj split
        obtain ⟨rfl, rfl⟩ := List.cons.inj behind
        have unbroken := (isFile_drive letter).mp isFile
        exact ⟨inner, rfl, cut?_eq_some_iff.mpr ⟨rfl, unbroken, opens⟩⟩
  · have other : ∀ drive tail, cs = drive :: ':' :: tail → tail ≠ [] → drive.isAlpha = false := by
      intro drive tail same some
      exact Bool.eq_false_iff.mpr fun letter => driven ⟨drive, tail, same, some, letter⟩
    rw [cutFile?_plain other, cut?_eq_some_iff]
    have ne_nil : (∃ c ∈ rest.head?, opensNumber c = true) → rest ≠ [] := by
      rintro ⟨c, first, -⟩ rfl
      cases first
    constructor
    · rintro ⟨rfl, unbroken, opens⟩
      exact ⟨rfl, (isFile_iff (ne_nil opens) other).mpr unbroken, opens⟩
    · rintro ⟨rfl, isFile, opens⟩
      exact ⟨rfl, (isFile_iff (ne_nil opens) other).mp isFile, opens⟩

/-! ### Locations -/

/-- `cs` writes a line, and behind a colon a column; a column that is left out is the first. -/
def Numbers (cs : List Char) (line column : Nat) : Prop :=
  ∃ first behind, cs = first ++ behind ∧ Numeral first line ∧ 0 < line ∧ 0 < column ∧
    (behind = [] ∧ column = 1 ∨ ∃ second, behind = ':' :: second ∧ Numeral second column)

theorem Numeral.no_colon {cs : List Char} {n : Nat} (numeral : Numeral cs n) :
    ∀ c ∈ cs, (c != ':') = true := by
  obtain ⟨digits, same, -, all, -⟩ := numeral
  have plain : ∀ c ∈ digits, (c != ':') = true := by
    intro c member
    have digit := all c member
    rw [bne_iff_ne]
    rintro rfl
    cases digit
  rcases same with rfl | rfl
  · exact plain
  · simpa using plain

/-- Both numbers are read, and neither is zero. -/
theorem numbers_eq_ok_iff_number? {cs : List Char} {line column : Nat} :
    numbers cs = .ok (line, column) ↔
      number? (cs.takeWhile (· != ':')) = some line ∧ 0 < line ∧ 0 < column ∧
        (cs.dropWhile (· != ':') = [] ∧ column = 1 ∨
          ∃ c second, cs.dropWhile (· != ':') = c :: second ∧ number? second = some column) := by
  have positive : ∀ n k : Nat,
      (if n = 0 then .error .lineZero else if k = 0 then .error .columnZero else .ok (n, k) :
        Except LocationError (Nat × Nat)) = .ok (line, column) ↔
      n = line ∧ k = column ∧ 0 < line ∧ 0 < column := by
    intro n k
    split
    · simp only [reduceCtorEq, false_iff]
      omega
    · split
      · simp only [reduceCtorEq, false_iff]
        omega
      · simp only [Except.ok.injEq, Prod.mk.injEq]
        omega
  unfold numbers
  cases first : number? (cs.takeWhile (· != ':')) with
  | none =>
    simp only [first]
    constructor
    · intro read
      cases read
    · rintro ⟨none, -⟩
      cases none
  | some n =>
    cases tail : cs.dropWhile (· != ':') with
    | nil =>
      simp only [first]
      apply (positive n 1).trans
      grind
    | cons c second =>
      cases found : number? second with
      | none =>
        simp only [first, found]
        constructor
        · intro read
          cases read
        · grind
      | some k =>
        simp only [first, found]
        apply (positive n k).trans
        grind

/-- The reader of line and column accepts what writes them, and no other text. -/
theorem numbers_eq_ok_iff {cs : List Char} {line column : Nat} :
    numbers cs = .ok (line, column) ↔ Numbers cs line column := by
  rw [numbers_eq_ok_iff_number?]
  constructor
  · rintro ⟨first, line_pos, column_pos, tail⟩
    refine ⟨_, _, List.takeWhile_append_dropWhile.symm, number?_eq_some_iff.mp first, line_pos,
      column_pos, ?_⟩
    rcases tail with none | ⟨c, second, tail, found⟩
    · exact Or.inl none
    · -- what is left starts with the colon at which the line stopped
      have stops := List.head?_dropWhile_not (· != ':') cs
      rw [tail] at stops
      obtain rfl : c = ':' := bne_eq_false_iff_eq.mp stops
      exact Or.inr ⟨second, tail, number?_eq_some_iff.mp found⟩
  · rintro ⟨first, behind, rfl, numeral, line_pos, column_pos, tail⟩
    have stops : behind.takeWhile (· != ':') = [] ∧ behind.dropWhile (· != ':') = behind := by
      rcases tail with ⟨rfl, -⟩ | ⟨second, rfl, -⟩
      · exact ⟨rfl, rfl⟩
      · exact ⟨rfl, rfl⟩
    rw [List.takeWhile_append_of_pos numeral.no_colon,
      List.dropWhile_append_of_pos numeral.no_colon, stops.1, stops.2, List.append_nil]
    refine ⟨number?_eq_some_iff.mpr numeral, line_pos, column_pos, ?_⟩
    rcases tail with none | ⟨second, rfl, found⟩
    · exact Or.inl none
    · exact Or.inr ⟨':', second, rfl, number?_eq_some_iff.mpr found⟩

/-- `cs` writes the location `l`: its file, a line that starts with a digit, and a column. -/
structure Written (cs : List Char) (l : FilePosition) : Prop where
  isFile : IsFile l.file.toList
  numbers : ∃ rest, cs = l.file.toList ++ ':' :: rest ∧ (∃ c ∈ rest.head?, c.isDigit = true) ∧
    Numbers rest l.line l.column

/-- The texts that are read are those that write a location, with blanks around it or not. -/
theorem parse_eq_ok_iff {text : String} {l : FilePosition} :
    parse text = .ok l ↔ Written (Text.trim text.toList) l := by
  constructor
  · intro read
    unfold parse at read
    dsimp only at read
    split at read
    · cases read
    split at read
    · cases read
    · cases read
    · next file rest positive cut =>
      obtain ⟨split, isFile, c, first, opens⟩ := cutFile?_eq_some_iff.mp cut
      have digit : c.isDigit = true := by
        rcases Bool.or_eq_true_iff.mp opens with digit | minus
        · exact digit
        · obtain rfl := beq_iff_eq.mp minus
          exact (positive _ (List.eq_cons_of_mem_head? first)).elim
      cases found : numbers rest with
      | error e =>
        rw [found] at read
        cases read
      | ok pair =>
        rw [found] at read
        obtain rfl := Except.ok.inj read
        refine ⟨?_, rest, ?_, ⟨c, first, digit⟩, numbers_eq_ok_iff.mp found⟩
        · rwa [String.toList_ofList]
        · rwa [String.toList_ofList]
  · rintro ⟨isFile, rest, split, ⟨c, first, digit⟩, read⟩
    have cut : cutFile? (Text.trim text.toList) = some (l.file.toList, rest) :=
      cutFile?_eq_some_iff.mpr ⟨split, isFile, c, first, by simp [opensNumber, digit]⟩
    unfold parse
    dsimp only
    rw [if_neg (by simp [split]), cut]
    split
    · next none => cases none
    · next tail minus =>
      obtain rfl := (Prod.mk.inj (Option.some.inj minus)).2
      obtain rfl := Option.some.inj first
      cases digit
    · next file' rest' _ same =>
      cases same
      rw [numbers_eq_ok_iff.mpr read]
      simp [Except.map]

/-! ### Printing -/

theorem toList_render (l : FilePosition) :
    l.render.toList =
      l.file.toList ++ ':' :: ((toString l.line).toList ++ ':' :: (toString l.column).toList) := by
  simp [render]

/-- Lines and columns are counted from one and are words. -/
theorem Written.bounds {cs : List Char} {l : FilePosition} (written : Written cs l) :
    (0 < l.line ∧ l.line < Position.wordSize) ∧ 0 < l.column ∧ l.column < Position.wordSize := by
  have word : ∀ {cs : List Char} {n : Nat}, Numeral cs n → n < Position.wordSize := by
    rintro cs n ⟨digits, -, -, -, -, bound⟩
    exact bound
  obtain ⟨-, rest, -, -, first, behind, -, line, line_pos, column_pos, tail⟩ := written
  refine ⟨⟨line_pos, word line⟩, column_pos, ?_⟩
  rcases tail with ⟨-, one⟩ | ⟨second, -, column⟩
  · rw [one]
    decide
  · exact word column

/-- A location that is written somehow is written by its printed form. -/
theorem Written.render {cs : List Char} {l : FilePosition} (written : Written cs l) :
    Written l.render.toList l := by
  obtain ⟨⟨line_pos, line_lt⟩, column_pos, column_lt⟩ := written.bounds
  refine ⟨written.isFile, _, toList_render l, ?_, _, _, rfl, numeral_toString line_lt, line_pos,
    column_pos, Or.inr ⟨_, rfl, numeral_toString column_lt⟩⟩
  obtain ⟨c, tail, digits⟩ := List.exists_cons_of_ne_nil (toString_ne_nil l.line)
  refine ⟨c, ?_, isDigit_of_mem_toString (digits ▸ List.mem_cons_self)⟩
  rw [digits]
  rfl

/-- There are no blanks around the printed form of a location that was read. -/
theorem trim_render {text : String} {l : FilePosition}
    (written : Written (Text.trim text.toList) l) :
    Text.trim l.render.toList = l.render.toList := by
  obtain ⟨-, rest, split, -⟩ := written
  apply Text.trim_eq_self
  · -- the first character is that of the text, whatever follows the file
    intro c first
    apply Text.first_trim text.toList
    rw [split]
    rw [toList_render] at first
    cases file : l.file.toList with
    | nil => rwa [file] at first
    | cons d file' => rwa [file] at first
  · intro c last
    apply Text.isBlank_of_isDigit
    have shape : l.render.toList =
        (l.file.toList ++ ':' :: (toString l.line).toList ++ [':']) ++
          (toString l.column).toList := by
      simp [toList_render]
    rw [shape, List.getLast?_append_of_ne_nil _ (toString_ne_nil l.column)] at last
    exact isDigit_of_mem_toString (List.mem_of_getLast? last)

/-- The texts that write a location are read, and no others. A location that was read is read from
its printed form again, and its numbers, which start from one, are one more than those of its
position. -/
theorem parse_stable (text : String) (l : FilePosition) :
    (parse text = .ok l ↔ Written (Text.trim text.toList) l) ∧
      (parse text = .ok l →
        parse l.render = .ok l ∧ 1 ≤ l.line ∧ 1 ≤ l.column ∧
          l.position.line + 1 = l.line ∧ l.position.column + 1 = l.column) := by
  refine ⟨parse_eq_ok_iff, fun read => ?_⟩
  have written := parse_eq_ok_iff.mp read
  have again : parse l.render = .ok l := by
    rw [parse_eq_ok_iff, trim_render written]
    exact written.render
  obtain ⟨⟨line_pos, -⟩, column_pos, -⟩ := written.bounds
  exact ⟨again, line_pos, column_pos, Nat.sub_add_cancel line_pos, Nat.sub_add_cancel column_pos⟩

/-- A drive, a colon in the file and a letter that is not ASCII, a line with zeros in front and a
column with a sign; and a line alone. -/
theorem parse_stable_drive :
    parse " C:\\é:x.json:007:+05 " = .ok ⟨"C:\\é:x.json", 7, 5⟩ ∧
      parse "C:\\é:x.json:7:5" = .ok ⟨"C:\\é:x.json", 7, 5⟩ ∧
      parse ":3" = .ok ⟨"", 3, 1⟩ ∧ parse ":3:1" = .ok ⟨"", 3, 1⟩ := by
  have drive : parse " C:\\é:x.json:007:+05 " = .ok ⟨"C:\\é:x.json", 7, 5⟩ := by rfl
  have bare : parse ":3" = .ok ⟨"", 3, 1⟩ := by rfl
  have printed : render ⟨"C:\\é:x.json", 7, 5⟩ = "C:\\é:x.json:7:5" := by decide
  have printed' : render ⟨"", 3, 1⟩ = ":3:1" := by decide
  refine ⟨drive, ?_, bare, ?_⟩
  · rw [← printed]
    exact ((parse_stable _ _).2 drive).1
  · rw [← printed']
    exact ((parse_stable _ _).2 bare).1

end FilePosition

end FishNav
