import FishNav.Proofs.Cursor.Reader

/-!
# Characters by their bytes

An ASCII character is one byte, and the bytes of any other character are all above the ASCII ones.
So a test for ASCII characters gives the same answer on each byte of a character as on the
character (`agrees_isByte`), moving over bytes moves over whole characters (`At.skip`), and a word
ends between two characters although a backslash may land inside one (`At.wordEnd`).
-/
namespace FishNav.Cursor

open Text (byteLength byteLength_append slice? dropBytes?)

/-! ### Encoding -/

def Ascii (c : Char) : Prop := c.toNat < 128

instance (c : Char) : Decidable (Ascii c) := inferInstanceAs (Decidable (c.toNat < 128))

theorem Ascii.size {c : Char} (ascii : Ascii c) : c.utf8Size = 1 := by
  rw [Char.utf8Size_eq_one_iff, UInt32.le_iff_toNat_le]
  exact Nat.le_of_lt_succ ascii

theorem encode_ascii {c : Char} (ascii : Ascii c) : String.utf8EncodeChar c = [c.toUInt8] :=
  String.utf8EncodeChar_eq_singleton ascii.size

/-- A character beyond ASCII has no byte that could be taken for an ASCII character. -/
theorem encode_high {c : Char} (high : ¬ Ascii c) :
    ∀ b ∈ String.utf8EncodeChar c, 128 ≤ b := by
  have large : ¬ c.val.toNat ≤ 127 := fun small => high (Nat.lt_succ_of_le small)
  have byte : ∀ n, 128 ≤ n → n < 256 → (128 : UInt8) ≤ UInt8.ofNat n := by
    intro n low below
    rw [UInt8.le_iff_toNat_le, UInt8.toNat_ofNat', Nat.mod_eq_of_lt below]
    exact low
  intro b member
  rw [String.utf8EncodeChar] at member
  simp only [large, if_false] at member
  split at member
  · simp only [List.mem_cons, List.not_mem_nil, or_false] at member
    rcases member with rfl | rfl <;> exact byte _ (by omega) (by omega)
  · split at member
    · simp only [List.mem_cons, List.not_mem_nil, or_false] at member
      rcases member with rfl | rfl | rfl <;> exact byte _ (by omega) (by omega)
    · simp only [List.mem_cons, List.not_mem_nil, or_false] at member
      rcases member with rfl | rfl | rfl | rfl <;> exact byte _ (by omega) (by omega)

@[simp] theorem bytes_nil : bytes [] = [] := rfl

@[simp] theorem bytes_cons (c : Char) (cs : List Char) :
    bytes (c :: cs) = String.utf8EncodeChar c ++ bytes cs := rfl

@[simp] theorem bytes_append (xs ys : List Char) : bytes (xs ++ ys) = bytes xs ++ bytes ys :=
  List.flatMap_append

theorem length_bytes (cs : List Char) : (bytes cs).length = byteLength cs := by
  induction cs with
  | nil => rfl
  | cons c cs ih => simp [ih]

/-! ### Tests -/

theorem isByte_ascii (p : Char → Bool) {c : Char} (ascii : Ascii c) :
    isByte p c.toUInt8 = p c := by
  have value : c.toUInt8.toNat = c.toNat := by
    rw [Char.toUInt8, UInt32.toNat_toUInt8]
    exact Nat.mod_eq_of_lt (Nat.lt_trans ascii (by decide))
  have small : c.toUInt8 < 128 := by
    rw [UInt8.lt_iff_toNat_lt, value]
    exact ascii
  rw [isByte, value, Char.ofNat_toNat, decide_eq_true small, Bool.true_and]

theorem isByte_high (p : Char → Bool) {b : UInt8} (high : 128 ≤ b) : isByte p b = false := by
  rw [isByte, decide_eq_false (UInt8.not_lt.mpr high), Bool.false_and]

theorem toUInt8_inj {c d : Char} (first : Ascii c) (second : Ascii d)
    (same : c.toUInt8 = d.toUInt8) : c = d := by
  have test := isByte_ascii (· == d) first
  rw [same, isByte_ascii _ second] at test
  simpa using test.symm

/-- A test of bytes and a test of characters that give the same answer on each byte of a
character. -/
def Agrees (p : UInt8 → Bool) (q : Char → Bool) : Prop :=
  ∀ c, ∀ b ∈ String.utf8EncodeChar c, p b = q c

/-- A test that only ASCII characters pass can be made byte by byte. -/
theorem agrees_isByte {p : Char → Bool} (ascii : ∀ c, p c = true → Ascii c) :
    Agrees (isByte p) p := by
  intro c b member
  by_cases small : Ascii c
  · rw [encode_ascii small, List.mem_singleton] at member
    rw [member, isByte_ascii p small]
  · rw [isByte_high p (encode_high small b member)]
    exact (Bool.eq_false_iff.mpr fun holds => small (ascii c holds)).symm

theorem Agrees.not {p : UInt8 → Bool} {q : Char → Bool} (agrees : Agrees p q) :
    Agrees (fun b => !p b) (fun c => !q c) :=
  fun c b member => congrArg (!·) (agrees c b member)

/-- Tests that agree stop at the same place. -/
theorem Agrees.takeWhile {p : UInt8 → Bool} {q : Char → Bool} (agrees : Agrees p q)
    (cs : List Char) : (bytes cs).takeWhile p = bytes (cs.takeWhile q) := by
  induction cs with
  | nil => rfl
  | cons c cs ih =>
    by_cases holds : q c = true
    · have all : ∀ b ∈ String.utf8EncodeChar c, p b = true := fun b member =>
        (agrees c b member).trans holds
      rw [bytes_cons, List.takeWhile_append_of_pos all, ih, List.takeWhile_cons_of_pos holds,
        bytes_cons]
    · obtain ⟨b, bs, split⟩ := List.exists_cons_of_ne_nil (String.utf8EncodeChar_ne_nil (c := c))
      have stop : ¬ p b = true := by
        rw [agrees c b (split ▸ List.mem_cons_self)]
        exact holds
      rw [bytes_cons, split, List.cons_append, List.takeWhile_cons_of_neg stop,
        List.takeWhile_cons_of_neg holds]
      rfl

theorem ascii_isSeparator {c : Char} (holds : Script.isSeparator c = true) : Ascii c := by
  simp only [Script.isSeparator, Script.isBlank, Bool.or_eq_true, beq_iff_eq] at holds
  rcases holds with ((rfl | rfl) | rfl) | rfl <;> decide

theorem ascii_isBlank {c : Char} (holds : Script.isBlank c = true) : Ascii c :=
  ascii_isSeparator (by simp [Script.isSeparator, holds])

theorem ascii_endsArgument {c : Char} (holds : Script.endsArgument c = true) : Ascii c := by
  simp only [Script.endsArgument, Bool.or_eq_true, beq_iff_eq] at holds
  rcases holds with separator | rfl
  · exact ascii_isSeparator separator
  · decide

theorem ascii_endsWord {c : Char} (holds : Script.endsWord c = true) : Ascii c := by
  simp only [Script.endsWord, Bool.or_eq_true, beq_iff_eq] at holds
  rcases holds with (((ends | rfl) | rfl) | rfl) | rfl
  · exact ascii_endsArgument ends
  all_goals decide

theorem ascii_endsLine {c : Char} (holds : Script.endsLine c = true) : Ascii c := by
  simp only [Script.endsLine, Bool.or_eq_true, beq_iff_eq] at holds
  rcases holds with ((rfl | rfl) | rfl) | rfl <;> decide

theorem ascii_of_le {c : Char} {bound : UInt32} (le : c.val ≤ bound) (small : bound.toNat < 128) :
    Ascii c :=
  Nat.lt_of_le_of_lt (UInt32.le_iff_toNat_le.mp le) small

theorem ascii_isDigit {c : Char} (holds : c.isDigit = true) : Ascii c := by
  simp only [Char.isDigit, Bool.and_eq_true, decide_eq_true_eq] at holds
  exact ascii_of_le holds.2 (by decide)

theorem ascii_isNameChar {c : Char} (holds : Script.isNameChar c = true) : Ascii c := by
  delta Script.isNameChar Char.isAlphanum Char.isAlpha Char.isUpper Char.isLower at holds
  simp only [Bool.or_eq_true, Bool.and_eq_true, decide_eq_true_eq, beq_iff_eq] at holds
  rcases holds with (((⟨-, upper⟩ | ⟨-, lower⟩) | digit) | rfl)
  · exact ascii_of_le upper (by decide)
  · exact ascii_of_le lower (by decide)
  · exact ascii_isDigit digit
  · decide

/-! ### Offsets between characters -/

/-- The offset `pos` of `text` stands before `cs`. -/
def At (text cs : List Char) (pos : Nat) : Prop :=
  ∃ front, text = front ++ cs ∧ pos = byteLength front

namespace At

variable {text cs xs ys : List Char} {pos : Nat} {c : Char}

theorem start (text : List Char) : At text text 0 := ⟨[], rfl, rfl⟩

theorem advance (xs : List Char) (here : At text (xs ++ ys) pos) :
    At text ys (pos + byteLength xs) := by
  obtain ⟨front, rfl, rfl⟩ := here
  exact ⟨front ++ xs, by simp, by simp⟩

theorem next (ascii : Ascii c) (here : At text (c :: cs) pos) : At text cs (pos + 1) := by
  simpa [ascii.size] using here.advance [c]

theorem drop (here : At text cs pos) : (bytes text).drop pos = bytes cs := by
  obtain ⟨front, rfl, rfl⟩ := here
  rw [bytes_append, ← length_bytes, List.drop_left]

theorem length (here : At text cs pos) : (bytes text).length = pos + byteLength cs := by
  obtain ⟨front, rfl, rfl⟩ := here
  rw [length_bytes, byteLength_append]

theorem dropBytes? (here : At text cs pos) : Text.dropBytes? pos text = some cs := by
  obtain ⟨front, rfl, rfl⟩ := here
  exact Text.dropBytes?_append front cs

theorem slice? (here : At text (xs ++ ys) pos) :
    Text.slice? text pos (pos + byteLength xs) = some xs := by
  obtain ⟨front, rfl, rfl⟩ := here
  exact Text.slice?_eq_some_iff.mpr
    ⟨front, ys, (List.append_assoc _ _ _).symm, rfl, (byteLength_append _ _).symm⟩

/-- Two offsets of a text differ by the bytes between them. -/
theorem offset {stop : Nat} (here : At text (xs ++ ys) pos) (there : At text ys stop) :
    stop = pos + byteLength xs := by
  obtain ⟨front, split, rfl⟩ := here
  obtain ⟨front', split', rfl⟩ := there
  rw [split, ← List.append_assoc] at split'
  obtain rfl := List.append_cancel_right split'
  exact byteLength_append front xs

theorem unique {stop : Nat} (here : At text cs pos) (there : At text cs stop) : stop = pos :=
  offset (show At text ([] ++ cs) pos from here) there

/-- Moving over bytes ends where dropping characters ends. -/
theorem skip {p : UInt8 → Bool} {q : Char → Bool} (here : At text cs pos) (agrees : Agrees p q) :
    Cursor.skip p text pos = pos + byteLength (cs.takeWhile q) := by
  rw [Cursor.skip, here.drop, agrees.takeWhile, length_bytes]

theorem behind {q : Char → Bool} (here : At text cs pos) :
    At text (cs.dropWhile q) (pos + byteLength (cs.takeWhile q)) := by
  rw [← List.takeWhile_append_dropWhile (p := q) (l := cs)] at here
  exact here.advance _

theorem peek_nil (here : At text [] pos) : peek? text pos = none := by
  rw [peek?, List.getElem?_eq_none_iff, here.length]
  exact Nat.le_refl _

/-- The first byte of a character stands for it in all tests for ASCII characters. -/
theorem peek_cons (here : At text (c :: cs) pos) :
    ∃ b, peek? text pos = some b ∧ (∀ d, Ascii d → (b = d.toUInt8 ↔ c = d)) ∧
      ∀ p : Char → Bool, (∀ d, p d = true → Ascii d) → isByte p b = p c := by
  obtain ⟨b, bs, split⟩ := List.exists_cons_of_ne_nil (String.utf8EncodeChar_ne_nil (c := c))
  have first : peek? text pos = some b := by
    have rest := congrArg List.head? here.drop
    rw [List.head?_drop, bytes_cons, split] at rest
    exact rest
  have member : b ∈ String.utf8EncodeChar c := split ▸ List.mem_cons_self
  refine ⟨b, first, fun d ascii => ?_, fun p ascii => agrees_isByte ascii c b member⟩
  have same := agrees_isByte (p := (· == d)) (by simpa using ascii) c b member
  constructor
  · rintro rfl
    rw [isByte_ascii _ ascii] at same
    simpa using same.symm
  · rintro rfl
    rw [encode_ascii ascii, List.mem_singleton] at member
    exact member

end At

/-! ### Words -/

theorem scan_cons {b : UInt8} (bs : List UInt8) (go : isByte Script.endsWord b = false)
    (plain : b ≠ '\\'.toUInt8) : scan (b :: bs) = 1 + scan bs := by
  cases bs with
  | nil => simp [scan, go, plain]
  | cons b' bs => simp [scan, go, plain]

/-- The bytes of a character beyond ASCII never end a word. -/
theorem scan_high (xs : List UInt8) (ys : List UInt8) (high : ∀ b ∈ xs, 128 ≤ b) :
    scan (xs ++ ys) = xs.length + scan ys := by
  induction xs with
  | nil => simp
  | cons b xs ih =>
    rw [List.forall_mem_cons] at high
    have plain : b ≠ '\\'.toUInt8 := by
      rintro rfl
      exact absurd high.1 (by decide)
    rw [List.cons_append, scan_cons _ (isByte_high _ high.1) plain, ih high.2, List.length_cons]
    omega

/-- All bytes of a character but the first are above the ASCII ones. -/
theorem encode_tail {c : Char} {b : UInt8} {bs : List UInt8}
    (split : String.utf8EncodeChar c = b :: bs) : ∀ b' ∈ bs, 128 ≤ b' := by
  by_cases ascii : Ascii c
  · rw [encode_ascii ascii] at split
    obtain ⟨-, rfl⟩ := List.cons.inj split
    simp
  · exact fun b' member => encode_high ascii b' (split ▸ List.mem_cons_of_mem b member)

/-- The bytes of a word, up to the one that a backslash at the end asks for in vain. -/
theorem scan_bytes (cs : List Char) :
    min (scan (bytes cs)) (byteLength cs) = byteLength (Script.word cs).1 := by
  fun_induction Script.word cs with
  | case1 => rfl
  | case2 c cs ih =>
    obtain ⟨b, bs, split⟩ := List.exists_cons_of_ne_nil (String.utf8EncodeChar_ne_nil (c := c))
    have size := String.length_utf8EncodeChar c
    rw [split, List.length_cons] at size
    have step : scan (bytes ('\\' :: c :: cs)) = 2 + (bs.length + scan (bytes cs)) := by
      rw [bytes_cons, bytes_cons, split, encode_ascii (by decide),
        ← scan_high bs _ (encode_tail split)]
      rfl
    rw [step]
    simp only [Text.byteLength_cons, show '\\'.utf8Size = 1 from rfl]
    omega
  | case3 c cs other ends =>
    obtain ⟨b, bs, split⟩ := List.exists_cons_of_ne_nil (String.utf8EncodeChar_ne_nil (c := c))
    have stop := agrees_isByte (p := Script.endsWord) (fun _ => ascii_endsWord) c b
      (split ▸ List.mem_cons_self)
    rw [ends] at stop
    have none : scan (bytes (c :: cs)) = 0 := by
      rw [bytes_cons, split, List.cons_append]
      cases bs ++ bytes cs <;> simp [scan, stop]
    rw [none]
    simp
  | case4 c cs other go ih =>
    by_cases backslash : c = '\\'
    · subst backslash
      cases cs with
      | nil => rfl
      | cons d cs => exact (other d cs rfl rfl).elim
    · have step : scan (bytes (c :: cs)) = c.utf8Size + scan (bytes cs) := by
        rw [bytes_cons, ← String.length_utf8EncodeChar]
        by_cases ascii : Ascii c
        · have plain : c.toUInt8 ≠ '\\'.toUInt8 := fun same =>
            backslash (toUInt8_inj ascii (by decide) same)
          rw [encode_ascii ascii]
          exact scan_cons _ (by simpa [isByte_ascii _ ascii] using go) plain
        · exact scan_high _ _ (encode_high ascii)
      rw [step]
      simp only [Text.byteLength_cons]
      omega

/-- The scan over bytes ends where the word ends. Backslashes take a byte there and a character
here. -/
theorem At.wordEnd {text cs : List Char} {pos : Nat} (here : At text cs pos) :
    Cursor.wordEnd text pos = pos + byteLength (Script.word cs).1 := by
  rw [Cursor.wordEnd, here.drop, here.length, Nat.add_min_add_left, scan_bytes]

/-- The word ahead is the same in both readings. -/
theorem At.nextWord? {text cs : List Char} {pos : Nat} (here : At text cs pos) :
    Cursor.nextWord? text pos = some (Script.word cs).1 := by
  rw [Cursor.nextWord?, here.wordEnd]
  rw [← Script.word_append cs] at here
  exact here.slice?

end FishNav.Cursor
