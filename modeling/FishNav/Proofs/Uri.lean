import FishNav.File.Uri
import Mathlib.Tactic.Common

/-!
# File URIs

An absolute path comes back from its URI unchanged, and the URI is written in letters, digits, a few
marks and escaped bytes only (`toPath_ofPath`). The way back has two parts: reading escapes gives
the bytes of the path, because nothing that is written as it is can be taken for an escape
(`decodeBytes_encode`), and the bytes of a text in UTF-8 are read without a loss
(`decodeLossy_encodeChar`).
-/
namespace FishNav.Uri

/-! ### Escapes -/

theorem hexValue?_hexDigit : ∀ n < 16, hexValue? (hexDigit n) = some n := by decide

theorem decodeBytes_encodeByte (b : UInt8) (rest : List Char) :
    decodeBytes (encodeByte b ++ rest) = b :: decodeBytes rest := by
  have bound : b.toNat < 256 := b.toNat_lt
  have high := hexValue?_hexDigit (b.toNat / 16) (by omega)
  have low := hexValue?_hexDigit (b.toNat % 16) (by omega)
  have value : b.toNat / 16 * 16 + b.toNat % 16 = b.toNat := by omega
  unfold encodeByte
  rw [List.cons_append, List.cons_append, List.cons_append, List.nil_append, decodeBytes, high, low]
  simp only [value, UInt8.ofNat_toNat]

theorem decodeBytes_encodeBytes (bytes : List UInt8) (rest : List Char) :
    decodeBytes (bytes.flatMap encodeByte ++ rest) = bytes ++ decodeBytes rest := by
  induction bytes with
  | nil => rfl
  | cons b bytes ih =>
    rw [List.flatMap_cons, List.append_assoc, decodeBytes_encodeByte, ih, List.cons_append]

theorem decodeBytes_plain {c : Char} (plain : isPlain c = true) (rest : List Char) :
    decodeBytes (c :: rest) = String.utf8EncodeChar c ++ decodeBytes rest := by
  apply decodeBytes.eq_2
  rintro a b more rfl -
  revert plain
  decide

/-- Reading the escapes of a written text gives its bytes. -/
theorem decodeBytes_encode (cs : List Char) :
    decodeBytes (encode cs) = cs.flatMap String.utf8EncodeChar := by
  induction cs with
  | nil => rfl
  | cons c cs ih =>
    unfold encode at ih ⊢
    rw [List.flatMap_cons, List.flatMap_cons]
    unfold encodeChar
    split
    · next plain =>
      rw [List.singleton_append, decodeBytes_plain plain]
      exact congrArg _ ih
    · rw [decodeBytes_encodeBytes]
      exact congrArg _ ih

/-! ### Bytes of a character -/

theorem toNat_byte {n : Nat} (bound : n < 256) : (UInt8.ofNat n).toNat = n :=
  UInt8.toNat_ofNat_of_lt' bound

theorem isContinuation_iff {b : UInt8} :
    isContinuation b = true ↔ 0x80 ≤ b.toNat ∧ b.toNat ≤ 0xbf := by
  simp [isContinuation, UInt8.le_iff_toNat_le]

/-- The second byte of a character may be any continuation that is not excluded for the first. -/
theorem isSecond_of {a b : UInt8} (continues : 0x80 ≤ b.toNat ∧ b.toNat ≤ 0xbf)
    (low3 : a.toNat = 0xe0 → 0xa0 ≤ b.toNat) (high3 : a.toNat = 0xed → b.toNat ≤ 0x9f)
    (low4 : a.toNat = 0xf0 → 0x90 ≤ b.toNat) (high4 : a.toNat = 0xf4 → b.toNat ≤ 0x8f) :
    isSecond a b = true := by
  unfold isSecond
  simp only [beq_iff_eq, ← UInt8.toNat_inj]
  split
  · next first => simp [UInt8.le_iff_toNat_le, continues.2, low3 first]
  split
  · next first => simp [UInt8.le_iff_toNat_le, continues.1, high3 first]
  split
  · next first => simp [UInt8.le_iff_toNat_le, continues.2, low4 first]
  split
  · next first => simp [UInt8.le_iff_toNat_le, continues.1, high4 first]
  · exact isContinuation_iff.mpr continues

theorem decodeLossy_one {a : UInt8} (first : a.toNat < 0x80) (rest : List UInt8) :
    decodeLossy (a :: rest) = Char.ofNat a.toNat :: decodeLossy rest := by
  rw [decodeLossy.eq_def]
  dsimp only
  exact if_pos (UInt8.lt_iff_toNat_lt.mpr first)

theorem decodeLossy_two {a b : UInt8} (first : 0xc2 ≤ a.toNat ∧ a.toNat ≤ 0xdf)
    (second : 0x80 ≤ b.toNat ∧ b.toNat ≤ 0xbf) (rest : List UInt8) :
    decodeLossy (a :: b :: rest) =
      Char.ofNat ((a.toNat - 0xc0) * 0x40 + (b.toNat - 0x80)) :: decodeLossy rest := by
  have high : ¬ a.toNat < 0x80 := by omega
  rw [decodeLossy.eq_def]
  simp [UInt8.lt_iff_toNat_lt, UInt8.le_iff_toNat_le, high, first, isContinuation_iff.mpr second]

theorem decodeLossy_three {a b c : UInt8} (first : 0xe0 ≤ a.toNat ∧ a.toNat ≤ 0xef)
    (second : isSecond a b = true) (third : 0x80 ≤ c.toNat ∧ c.toNat ≤ 0xbf)
    (rest : List UInt8) :
    decodeLossy (a :: b :: c :: rest) =
      Char.ofNat ((a.toNat - 0xe0) * 0x1000 + (b.toNat - 0x80) * 0x40 + (c.toNat - 0x80)) ::
        decodeLossy rest := by
  have high : ¬ a.toNat < 0x80 := by omega
  have two : ¬ a.toNat ≤ 0xdf := by omega
  rw [decodeLossy.eq_def]
  simp [UInt8.lt_iff_toNat_lt, UInt8.le_iff_toNat_le, high, two, first, second,
    isContinuation_iff.mpr third]

theorem decodeLossy_four {a b c d : UInt8} (first : 0xf0 ≤ a.toNat ∧ a.toNat ≤ 0xf4)
    (second : isSecond a b = true) (third : 0x80 ≤ c.toNat ∧ c.toNat ≤ 0xbf)
    (fourth : 0x80 ≤ d.toNat ∧ d.toNat ≤ 0xbf) (rest : List UInt8) :
    decodeLossy (a :: b :: c :: d :: rest) =
      Char.ofNat ((a.toNat - 0xf0) * 0x40000 + (b.toNat - 0x80) * 0x1000 +
        (c.toNat - 0x80) * 0x40 + (d.toNat - 0x80)) :: decodeLossy rest := by
  have high : ¬ a.toNat < 0x80 := by omega
  have two : ¬ a.toNat ≤ 0xdf := by omega
  have three : ¬ a.toNat ≤ 0xef := by omega
  rw [decodeLossy.eq_def]
  simp [UInt8.lt_iff_toNat_lt, UInt8.le_iff_toNat_le, high, two, three, first, second,
    isContinuation_iff.mpr third, isContinuation_iff.mpr fourth]

/-- A character is read from its bytes. -/
theorem decodeLossy_encodeChar (c : Char) (rest : List UInt8) :
    decodeLossy (String.utf8EncodeChar c ++ rest) = c :: decodeLossy rest := by
  have valid : c.val.toNat < 0xd800 ∨ 0xdfff < c.val.toNat ∧ c.val.toNat < 0x110000 := c.valid
  have same : ∀ n, n = c.val.toNat → Char.ofNat n = c := by
    rintro n rfl
    exact Char.ofNat_toNat c
  unfold String.utf8EncodeChar
  dsimp only
  split
  · next one =>
    have value := toNat_byte (n := c.val.toNat) (by omega)
    rw [List.singleton_append, decodeLossy_one (by omega), value, same _ rfl]
  split
  · next more two =>
    have first := toNat_byte (n := c.val.toNat / 64 % 32 + 192) (by omega)
    have second := toNat_byte (n := c.val.toNat % 64 + 128) (by omega)
    rw [List.cons_append, List.singleton_append, decodeLossy_two (by omega) (by omega), first,
      second, same _ (by omega)]
  split
  · next more three =>
    have first := toNat_byte (n := c.val.toNat / 4096 % 16 + 224) (by omega)
    have second := toNat_byte (n := c.val.toNat / 64 % 64 + 128) (by omega)
    have third := toNat_byte (n := c.val.toNat % 64 + 128) (by omega)
    rw [List.cons_append, List.cons_append, List.singleton_append,
      decodeLossy_three (by omega) (isSecond_of (by omega) (by omega) (by omega) (by omega)
        (by omega)) (by omega), first, second, third, same _ (by omega)]
  · next more =>
    have first := toNat_byte (n := c.val.toNat / 262144 % 8 + 240) (by omega)
    have second := toNat_byte (n := c.val.toNat / 4096 % 64 + 128) (by omega)
    have third := toNat_byte (n := c.val.toNat / 64 % 64 + 128) (by omega)
    have fourth := toNat_byte (n := c.val.toNat % 64 + 128) (by omega)
    rw [List.cons_append, List.cons_append, List.cons_append, List.singleton_append,
      decodeLossy_four (by omega) (isSecond_of (by omega) (by omega) (by omega) (by omega)
        (by omega)) (by omega) (by omega), first, second, third, fourth, same _ (by omega)]

/-- Nothing is lost on well-formed UTF-8. -/
theorem decodeLossy_utf8 (cs : List Char) :
    decodeLossy (cs.flatMap String.utf8EncodeChar) = cs := by
  induction cs with
  | nil => rfl
  | cons c cs ih => rw [List.flatMap_cons, decodeLossy_encodeChar, ih]

/-! ### Written URIs -/

/-- A hexadecimal digit as URIs are written with. -/
def IsHexDigit (c : Char) : Prop := c.isDigit = true ∨ 'A' ≤ c ∧ c ≤ 'F'

/-- Letters, digits and marks, and percent signs with two hexadecimal digits behind each. -/
inductive Written : List Char → Prop
  | nil : Written []
  | plain {c : Char} {cs : List Char}
      (allowed : c.isAlpha = true ∨ c.isDigit = true ∨ c ∈ ['/', '.', '-', '_', '~'])
      (rest : Written cs) : Written (c :: cs)
  | escape {a b : Char} {cs : List Char} (high : IsHexDigit a) (low : IsHexDigit b)
      (rest : Written cs) : Written ('%' :: a :: b :: cs)

theorem isHexDigit_hexDigit : ∀ n < 16, IsHexDigit (hexDigit n) := by
  unfold IsHexDigit
  decide

theorem written_encodeBytes (bytes : List UInt8) {rest : List Char} (written : Written rest) :
    Written (bytes.flatMap encodeByte ++ rest) := by
  induction bytes with
  | nil => exact written
  | cons b bytes ih =>
    have bound : b.toNat < 256 := b.toNat_lt
    rw [List.flatMap_cons, List.append_assoc]
    exact .escape (isHexDigit_hexDigit _ (by omega)) (isHexDigit_hexDigit _ (by omega)) ih

/-- URIs are written with letters, digits, marks and percent signs only. -/
theorem written_encode (cs : List Char) : Written (encode cs) := by
  induction cs with
  | nil => exact .nil
  | cons c cs ih =>
    unfold encode at ih ⊢
    rw [List.flatMap_cons]
    unfold encodeChar
    split
    · next plain =>
      have marks : (c.isAlpha || c.isDigit || c == '/' || c == '.' || c == '-' || c == '_' ||
        c == '~') = true := plain
      refine .plain ?_ ih
      simp only [Bool.or_eq_true, beq_iff_eq] at marks
      simp only [List.mem_cons, List.not_mem_nil, or_false]
      tauto
    · exact written_encodeBytes _ ih

/-! ### Paths -/

theorem after?_append (start cs : List Char) : Text.after? start (start ++ cs) = some cs := by
  induction start with
  | nil => rfl
  | cons c start ih =>
    rw [List.cons_append, Text.after?, if_pos rfl]
    exact ih

theorem ofPath_absolute {cwd p : String} (absolute : Path.isAbsolute p = true) :
    ofPath cwd p = String.ofList (scheme ++ encode p.toList) := by
  unfold ofPath Path.join
  rw [absolute, Bool.true_or, if_pos rfl]

/-- An absolute path is read back from its URI. -/
theorem toPath_absolute {cwd p : String} (absolute : Path.isAbsolute p = true) :
    toPath (ofPath cwd p) = p := by
  unfold toPath
  rw [ofPath_absolute absolute, String.toList_ofList, after?_append]
  dsimp only
  rw [decodeBytes_encode, decodeLossy_utf8, String.ofList_toList]

/-- An absolute path comes back from its URI, which is written in plain characters and escapes
behind the scheme, and no other absolute path has the same URI. -/
theorem toPath_ofPath (cwd p : String) (absolute : Path.isAbsolute p = true) :
    toPath (ofPath cwd p) = p ∧
      (∃ body, ofPath cwd p = "file://" ++ String.ofList body ∧ Written body) ∧
      ∀ cwd' q, Path.isAbsolute q = true → q ≠ p → ofPath cwd' q ≠ ofPath cwd p := by
  refine ⟨toPath_absolute absolute, ⟨encode p.toList, ?_, written_encode _⟩, ?_⟩
  · rw [ofPath_absolute absolute, String.ofList_append]
    rfl
  · intro cwd' q other different same
    apply different
    calc
      q = toPath (ofPath cwd' q) := (toPath_absolute other).symm
      _ = toPath (ofPath cwd p) := congrArg toPath same
      _ = p := toPath_absolute absolute

/-- A percent sign in the path, marks of URIs, a newline and characters of two and four bytes. -/
theorem toPath_ofPath_marks :
    Path.isAbsolute "/a%20 b/#?\né😀" = true ∧
      ofPath "/" "/a%20 b/#?\né😀" = "file:///a%2520%20b/%23%3F%0A%C3%A9%F0%9F%98%80" ∧
      toPath "file:///a%2520%20b/%23%3F%0A%C3%A9%F0%9F%98%80" = "/a%20 b/#?\né😀" := by
  have absolute : Path.isAbsolute "/a%20 b/#?\né😀" = true := by decide +kernel
  have uri : ofPath "/" "/a%20 b/#?\né😀" = "file:///a%2520%20b/%23%3F%0A%C3%A9%F0%9F%98%80" := by
    decide +kernel
  refine ⟨absolute, uri, ?_⟩
  have back := (toPath_ofPath "/" _ absolute).1
  rwa [uri] at back

end FishNav.Uri
