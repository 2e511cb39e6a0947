import FishNav.Proofs.Cursor.Bytes

/-!
# Tokens by offsets

Parts of a text hold nodes, and the lengths of the parts give their offsets (`raws`). Wherever a
keyword, a comment, a string, an expansion or a word stands, the reader by offsets finds exactly
the nodes of its parts and stops where the text behind it starts.
-/
namespace FishNav.Cursor

open Text (byteLength byteLength_append byteLength_cons)
open Script (isBlank isSeparator endsWord endsArgument endsLine readWordFrom readWordFrom_append)

/-! ### The nodes of parts -/

mutual

/-- The nodes of a part that starts at the offset `pos`. -/
def raw (pos : Nat) : Cst → List Raw
  | .text _ => []
  | .node kind parts => [.node kind pos (pos + byteLength (Cst.charsOfAll parts)) (raws pos parts)]

def raws (pos : Nat) : List Cst → List Raw
  | [] => []
  | p :: ps => raw pos p ++ raws (pos + byteLength p.chars) ps

end

@[simp] theorem raws_nil (pos : Nat) : raws pos [] = [] := by rw [raws]

@[simp] theorem raws_text (pos : Nat) (cs : List Char) (ps : List Cst) :
    raws pos (.text cs :: ps) = raws (pos + byteLength cs) ps := by
  rw [raws, raw, List.nil_append, Cst.chars_text]

theorem raws_cons (pos : Nat) (p : Cst) (ps : List Cst) :
    raws pos (p :: ps) = raws pos [p] ++ raws (pos + byteLength p.chars) ps := by
  rw [raws, raws, raws_nil, List.append_nil]

/-- Parts in a row: the second run starts where the first ends. -/
theorem raws_append (pos : Nat) (ps qs : List Cst) :
    raws pos (ps ++ qs) = raws pos ps ++ raws (pos + byteLength (Cst.charsOfAll ps)) qs := by
  induction ps generalizing pos with
  | nil => simp
  | cons p ps ih =>
    rw [List.cons_append, raws_cons, ih, raws_cons pos p ps, Cst.charsOfAll_cons,
      byteLength_append, List.append_assoc, Nat.add_assoc]

theorem raws_node (pos : Nat) (kind : Kind) (parts : List Cst) :
    raws pos [.node kind parts] =
      [.node kind pos (pos + byteLength (Cst.charsOfAll parts)) (raws pos parts)] := by
  rw [raws, raw, raws_nil, List.append_nil]

@[simp] theorem raws_leaf (pos : Nat) (kind : Kind) (cs : List Char) :
    raws pos [.leaf kind cs] = [.leaf kind pos (pos + byteLength cs)] := by
  simp [Cst.leaf, Raw.leaf, raws_node]

@[simp] theorem raws_token (pos : Nat) (cs : List Char) :
    raws pos [.token cs] = [.token pos (pos + byteLength cs)] := raws_leaf pos .anonymous cs

/-! What is left of a text stands behind the parts that were read. -/

/-- Parts that spell out the text at an offset lead to the offset behind them. -/
theorem At.behind_parts {text cs rest : List Char} {pos : Nat} {parts : List Cst}
    {shape : List Cst → Prop} (here : At text cs pos) (yields : Script.Yields shape cs parts rest) :
    At text rest (pos + byteLength (Cst.charsOfAll parts)) := by
  rw [← yields.chars] at here
  exact here.advance _

theorem At.behind_node {text cs rest : List Char} {pos : Nat} {p : Cst} {kinds : List Kind}
    (here : At text cs pos) (yields : Script.YieldsNode kinds cs p rest) :
    At text rest (pos + byteLength p.chars) := by
  rw [← yields.chars] at here
  exact here.advance _

/-- A procedure that starts at `pos` finds the nodes of `parts` and stops where `there` says. -/
def Reads (pos : Nat) (parts : List Cst) (there : Nat → Prop) (result : Option (List Raw × Nat)) :
    Prop := ∃ stop, result = some (raws pos parts, stop) ∧ there stop

/-- The same of a procedure that finds one node. -/
def ReadsNode (pos : Nat) (parts : List Cst) (there : Nat → Prop) (result : Option (Raw × Nat)) :
    Prop := ∃ r stop, result = some (r, stop) ∧ raws pos parts = [r] ∧ there stop

/-- A leaf that covers the text up to where the reader stops. -/
theorem ReadsNode.leaf {text front rest : List Char} {pos : Nat} {kind : Kind}
    {result : Option (Raw × Nat)} (here : At text (front ++ rest) pos)
    (found : result = some (.leaf kind pos (pos + byteLength front), pos + byteLength front)) :
    ReadsNode pos [.leaf kind front] (At text rest) result :=
  ⟨_, _, found, raws_leaf pos kind front, here.advance front⟩

/-- A node whose parts spell the text up to where the reader stops. -/
theorem ReadsNode.node {text cs rest : List Char} {parts : List Cst} {pos stop : Nat} {kind : Kind}
    {result : Option (Raw × Nat)} (here : At text cs pos)
    (spelled : (Cst.node kind parts).chars ++ rest = cs) (there : At text rest stop)
    (found : result = some (.node kind pos stop (raws pos parts), stop)) :
    ReadsNode pos [.node kind parts] (At text rest) result := by
  rw [← spelled, Cst.chars_node] at here
  obtain rfl := here.offset there
  exact ⟨_, _, found, raws_node pos kind parts, there⟩

/-- One node and then the others, which start where the first one ends. -/
theorem Reads.cons {p : Cst} {ps : List Cst} {pos : Nat} {between there : Nat → Prop}
    {first : Option (Raw × Nat)} {next : Nat → Option (List Raw × Nat)}
    (one : ReadsNode pos [p] between first)
    (more : ∀ stop, between stop → Reads (pos + byteLength p.chars) ps there (next stop)) :
    Reads pos (p :: ps) there (do
      let (r, stop) ← first
      let (rs, stop) ← next stop
      return (r :: rs, stop)) := by
  obtain ⟨r, stop, found, node, here⟩ := one
  obtain ⟨last, found', here'⟩ := more stop here
  refine ⟨last, ?_, here'⟩
  rw [raws_cons, node, found]
  simp only [Option.bind_eq_bind, Option.bind_some, found']
  rfl

theorem Reads.text {cs : List Char} {ps : List Cst} {pos : Nat} {there : Nat → Prop}
    {result : Option (List Raw × Nat)} (reads : Reads (pos + byteLength cs) ps there result) :
    Reads pos (.text cs :: ps) there result := by
  rw [Reads, raws_text]
  exact reads

theorem raws_punctuation (pos : Nat) {c : Char} (ascii : Ascii c) (ps : List Cst) :
    raws pos (.token [c] :: ps) = .token pos (pos + 1) :: raws (pos + 1) ps := by
  rw [raws_cons, raws_token, Cst.chars_token]
  simp [ascii.size]

variable {text cs : List Char} {pos : Nat}

/-! ### Keywords -/

/-- A word that does not start with an ending character is read the same with its first character
known. -/
theorem readWordFrom_eq_word {c : Char} {tail : List Char} (go : endsWord c = false) :
    (readWordFrom c tail).value = (Script.word (c :: tail)).1 ∧
      (readWordFrom c tail).rest = (Script.word (c :: tail)).2 := by
  unfold readWordFrom Script.word
  split
  · exact ⟨rfl, rfl⟩
  · next other =>
    split
    · next same => cases same
    · next same =>
      obtain ⟨rfl, rfl⟩ := List.cons.inj same
      exact (other _ _ rfl rfl).elim
    · next same =>
      obtain ⟨rfl, rfl⟩ := List.cons.inj same
      simp [go, Script.readWord]

theorem word_of_endsWord {c : Char} (ends : endsWord c = true) (tail : List Char) :
    (Script.word (c :: tail)).1 = [] := by
  unfold Script.word
  split
  · rfl
  · next same =>
    obtain ⟨rfl, -⟩ := List.cons.inj same
    exact absurd ends (by decide)
  · next same =>
    obtain ⟨rfl, rfl⟩ := List.cons.inj same
    rw [if_pos ends]

theorem head?_readWordFrom (c : Char) (tail : List Char) :
    (readWordFrom c tail).value.head? = some c := by
  unfold readWordFrom
  split <;> rfl

/-- Keywords start with a character that does not end a word. -/
def Opens (key : List Char) : Prop := key.head?.any (fun c => !endsWord c) = true

instance (key : List Char) : Decidable (Opens key) :=
  inferInstanceAs (Decidable (key.head?.any (fun c => !endsWord c) = true))

/-- Reading a word from its first character on makes no difference where a keyword stands. -/
theorem word_eq_keyword_iff {key : List Char} (opens : Opens key) (c : Char) (tail : List Char) :
    (Script.word (c :: tail)).1 = key ↔ (readWordFrom c tail).value = key := by
  cases ends : endsWord c with
  | false => rw [(readWordFrom_eq_word ends).1]
  | true =>
    rw [word_of_endsWord ends]
    constructor
    · rintro rfl
      exact absurd opens (by simp [Opens])
    · rintro rfl
      rw [Opens, head?_readWordFrom] at opens
      simp [ends] at opens

theorem At.wordFrom {c : Char} {tail : List Char} (here : At text (c :: tail) pos) :
    At text (readWordFrom c tail).rest (pos + byteLength (readWordFrom c tail).value) := by
  rw [← readWordFrom_append c tail] at here
  exact here.advance _

/-- A keyword behind a gap, found or missing. The reader has come to `p` in the gap, and only
blanks are left of it. -/
theorem keyword_reads {gap : Char → Bool} (key : List Char) {p : Nat} (opens : Opens key)
    (here : At text cs pos)
    (left : skip (isByte isBlank) text p = pos + byteLength (cs.takeWhile gap)) :
    ReadsNode pos (Script.keyword gap key cs).value (At text (Script.keyword gap key cs).rest)
      (keyword text key p) := by
  have start := here.behind (q := gap)
  by_cases found : ∃ c tail, cs.dropWhile gap = c :: tail ∧ (readWordFrom c tail).value = key
  · obtain ⟨c, tail, next, same⟩ := found
    obtain ⟨value, rest⟩ := Script.keyword_found next same
    rw [next] at start
    have word := (word_eq_keyword_iff opens c tail).mpr same
    have stop := start.wordFrom
    rw [same] at stop
    rw [value, rest]
    refine ⟨_, _, ?_, (raws_text _ _ _).trans (raws_token _ _), stop⟩
    simp [keyword, left, start.nextWord?, word]
  · have other : ∀ c tail, cs.dropWhile gap = c :: tail →
        (readWordFrom c tail).value ≠ key :=
      fun c tail next same => found ⟨c, tail, next, same⟩
    obtain ⟨value, rest⟩ := Script.keyword_absent other
    have word : (Script.word (cs.dropWhile gap)).1 ≠ key := by
      rcases next : cs.dropWhile gap with _ | ⟨c, tail⟩
      · rintro rfl
        exact absurd opens Bool.false_ne_true
      · exact fun same => other c tail next ((word_eq_keyword_iff opens c tail).mp same)
    rw [value, rest]
    refine ⟨_, _, ?_, (raws_text _ _ _).trans (raws_token _ _), start⟩
    simp [keyword, left, start.nextWord?, word]

/-! ### Comments and strings in single quotes -/

theorem find?_of_dropWhile {c d : Char} {tail : List Char}
    (next : cs.dropWhile (· != c) = d :: tail) :
    d = c ∧ find? c cs = some (byteLength (cs.takeWhile (· != c))) := by
  obtain rfl : d = c := by simpa using Text.not_of_dropWhile next
  have member : cs.contains d = true := by
    rw [← Text.takeWhile_append_of_dropWhile next]
    simp
  exact ⟨rfl, by rw [find?, if_pos member]⟩

theorem find?_of_dropWhile_nil {c : Char} (next : cs.dropWhile (· != c) = []) :
    find? c cs = none ∧ cs.takeWhile (· != c) = cs := by
  have all := List.takeWhile_append_dropWhile (p := (· != c)) (l := cs)
  rw [next, List.append_nil] at all
  have absent : cs.contains c = false := by
    rw [← all]
    simpa using fun member => by simpa using Text.of_mem_takeWhile member
  exact ⟨by rw [find?, absent]; rfl, all⟩

theorem comment_reads {tail : List Char} (here : At text ('#' :: tail) pos) :
    ReadsNode pos [.leaf .comment ('#' :: tail.takeWhile (· != '\n'))]
      (At text (tail.dropWhile (· != '\n'))) (comment text pos) := by
  have line : ('#' :: tail).takeWhile (· != '\n') = '#' :: tail.takeWhile (· != '\n') := by simp
  have stop : ((find? '\n' ('#' :: tail)).map (pos + ·)).getD (bytes text).length =
      pos + byteLength ('#' :: tail.takeWhile (· != '\n')) := by
    rw [← line]
    rcases next : ('#' :: tail).dropWhile (· != '\n') with _ | ⟨d, rest⟩
    · obtain ⟨absent, all⟩ := find?_of_dropWhile_nil next
      rw [absent, all, here.length]
      rfl
    · rw [(find?_of_dropWhile next).2]
      rfl
  refine .leaf (by simpa using here) ?_
  simp only [comment, here.dropBytes?, Option.bind_eq_bind, Option.bind_some, stop]
  rfl

theorem singleQuoted_reads (here : At text ('\'' :: cs) pos) :
    ReadsNode pos [(Script.singleQuoted cs).value] (At text (Script.singleQuoted cs).rest)
      (singleQuoted text pos) := by
  have inside : At text cs (pos + 1) := here.next (by decide)
  rcases next : cs.dropWhile (· != '\'') with _ | ⟨c, tail⟩
  · obtain ⟨value, rest⟩ := Script.singleQuoted_open next
    obtain ⟨absent, all⟩ := find?_of_dropWhile_nil next
    rw [value, rest, all]
    refine .leaf (by simpa using here) ?_
    simp [singleQuoted, inside.dropBytes?, absent, here.length]
  · obtain ⟨value, rest⟩ := Script.singleQuoted_closed next
    obtain ⟨rfl, found⟩ := find?_of_dropWhile next
    have size : pos + byteLength (cs.takeWhile (· != '\'')) + 2 =
        pos + byteLength ('\'' :: cs.takeWhile (· != '\'') ++ ['\'']) := by
      simp [show '\''.utf8Size = 1 from rfl]
      omega
    rw [value, rest]
    refine .leaf (by simpa [Text.takeWhile_append_of_dropWhile next] using here) ?_
    rw [← size]
    simp [singleQuoted, inside.dropBytes?, found]

/-! ### Words, indexes and expansions -/

theorem Agrees.all {p : UInt8 → Bool} {q : Char → Bool} (agrees : Agrees p q) (cs : List Char) :
    (bytes cs).all p = cs.all q := by
  induction cs with
  | nil => rfl
  | cons c cs ih =>
    obtain ⟨b, bs, split⟩ := List.exists_cons_of_ne_nil (String.utf8EncodeChar_ne_nil (c := c))
    have first : (String.utf8EncodeChar c).all p = q c := by
      rw [Bool.eq_iff_iff, List.all_eq_true]
      refine ⟨fun all => ?_, fun holds b' member => (agrees c b' member).trans holds⟩
      have member : b ∈ String.utf8EncodeChar c := split ▸ List.mem_cons_self
      exact (agrees c b member).symm.trans (all b member)
    rw [bytes_cons, List.all_append, List.all_cons, ih, first]

theorem wordLeaf_eq {xs ys : List Char} (here : At text (xs ++ ys) pos) :
    wordLeaf text pos (pos + byteLength xs) =
      some (.leaf (if xs.all Char.isDigit then .integer else .word) pos (pos + byteLength xs)) := by
  simp [wordLeaf, here.slice?, (agrees_isByte fun _ => ascii_isDigit).all]

theorem bareWord_reads {c : Char} {tail : List Char} (go : endsWord c = false)
    (here : At text (c :: tail) pos) :
    ReadsNode pos [Script.wordLeaf (readWordFrom c tail).value]
      (At text (readWordFrom c tail).rest) (bareWord text pos) := by
  have stop := here.wordEnd
  rw [← (readWordFrom_eq_word go).1] at stop
  rw [← readWordFrom_append c tail] at here
  refine .leaf here ?_
  simp [bareWord, stop, wordLeaf_eq here]

theorem closing_reads {c : Char} (ascii : Ascii c) (here : At text cs pos) :
    Reads pos (Script.closing c cs).value (At text (Script.closing c cs).rest)
      (some (closing text c pos)) := by
  rcases cs with _ | ⟨d, tail⟩
  · exact ⟨pos, by simp [closing, here.peek_nil, Script.closing], here⟩
  · obtain ⟨b, peek, same, -⟩ := here.peek_cons
    by_cases found : d = c
    · subst found
      refine ⟨pos + 1, ?_, ?_⟩
      · simp [closing, peek, (same d ascii).mpr rfl, Script.closing, ascii.size]
      · simpa [Script.closing] using here.next ascii
    · have other : b ≠ c.toUInt8 := fun equal => found ((same c ascii).mp equal)
      exact ⟨pos, by simp [closing, peek, other, Script.closing, found], by
        simpa [Script.closing, found] using here⟩

theorem agrees_isIndexChar :
    Agrees (fun b => !isByte (fun c => c == ']' || c == '\n') b) Script.isIndexChar := by
  have ascii : ∀ c : Char, (c == ']' || c == '\n') = true → Ascii c := by
    intro c holds
    simp only [Bool.or_eq_true, beq_iff_eq] at holds
    rcases holds with rfl | rfl <;> decide
  have same : Script.isIndexChar = fun c => !(c == ']' || c == '\n') := by
    funext c
    rw [Bool.not_or]
    rfl
  rw [same]
  exact (agrees_isByte ascii).not

/-- A loop has moved on exactly if it has passed a character. -/
theorem lt_add_byteLength_iff (start : Nat) (cs : List Char) :
    start < start + byteLength cs ↔ cs ≠ [] := by
  constructor
  · rintro moved rfl
    exact absurd moved (Nat.lt_irrefl _)
  · intro some
    have positive := Text.byteLength_pos some
    omega

theorem indexValue_reads {value rest : List Char} (here : At text (value ++ rest) pos) :
    let parts := if value = [] then [] else [Script.wordLeaf value]
    indexValue text pos (pos + byteLength value) = some (raws pos parts) ∧
      Cst.charsOfAll parts = value := by
  simp only [indexValue, lt_add_byteLength_iff]
  by_cases none : value = []
  · simp [none]
  · simp [none, wordLeaf_eq here, Script.wordLeaf]

theorem index_reads (here : At text ('[' :: cs) pos) :
    ReadsNode pos [(Script.index cs).value] (At text (Script.index cs).rest) (index text pos) := by
  have inside : At text cs (pos + 1) := here.next (by decide)
  have moved := inside.skip agrees_isIndexChar
  have before := inside
  rw [← List.takeWhile_append_dropWhile (p := Script.isIndexChar) (l := cs)] at before
  obtain ⟨value, chars⟩ := indexValue_reads before
  obtain ⟨stop, closed, there⟩ := closing_reads (c := ']') (by decide) (before.advance _)
  have spelled := (Script.index_yields cs).chars
  rw [(Script.index_eq cs).1, (Script.index_eq cs).2] at spelled ⊢
  refine .node here spelled there ?_
  rw [List.cons_append, raws_punctuation pos (by decide), raws_append, chars]
  simp only [index, moved, value, Option.some.inj closed, Option.bind_eq_bind, Option.bind_some,
    List.cons_append]
  rfl

theorem raws_expansionName (pos : Nat) (cs : List Char) :
    let stop := pos + 1 + byteLength (cs.takeWhile Script.isNameChar)
    raws pos (Script.expansionName cs) =
      .token pos (pos + 1) ::
        if pos + 1 < stop then [.leaf .variableName (pos + 1) stop] else [] := by
  simp only [Script.expansionName, raws_punctuation pos (c := '$') (by decide),
    lt_add_byteLength_iff]
  by_cases none : cs.takeWhile Script.isNameChar = []
  · simp [none]
  · simp [none]

theorem expansion_reads (here : At text ('$' :: cs) pos) :
    ReadsNode pos [(Script.expansion cs).value] (At text (Script.expansion cs).rest)
      (expansion text pos) := by
  have inside : At text cs (pos + 1) := here.next (by decide)
  have moved := inside.skip (agrees_isByte fun _ => ascii_isNameChar)
  have stop := inside.behind (q := Script.isNameChar)
  have spelled := (Script.expansion_yields cs).chars
  by_cases bracket : ∃ tail, cs.dropWhile Script.isNameChar = '[' :: tail
  · obtain ⟨tail, next⟩ := bracket
    rw [next] at stop
    obtain ⟨b, peek, same, -⟩ := stop.peek_cons
    rw [(same '[' (by decide)).mpr rfl] at peek
    obtain ⟨r, last, result, node, there⟩ := index_reads stop
    rw [(Script.expansion_index next).1, (Script.expansion_index next).2] at spelled ⊢
    refine .node here spelled there ?_
    rw [raws_append, (Script.expansionName_spec cs).1, byteLength_cons,
      show '$'.utf8Size = 1 from rfl, ← Nat.add_assoc, node, raws_expansionName]
    simp [expansion, moved, peek, result]
  · have absent : peek? text (pos + 1 + byteLength (cs.takeWhile Script.isNameChar)) ≠
        some '['.toUInt8 := by
      rcases next : cs.dropWhile Script.isNameChar with _ | ⟨c, tail⟩
      · rw [next] at stop
        simp [stop.peek_nil]
      · rw [next] at stop
        obtain ⟨b, peek, same, -⟩ := stop.peek_cons
        rw [peek]
        intro equal
        obtain rfl := (same '[' (by decide)).mp (Option.some.inj equal)
        exact bracket ⟨tail, next⟩
    have plain := Script.expansion_plain fun tail next => bracket ⟨tail, next⟩
    rw [plain.1, plain.2] at spelled ⊢
    refine .node here spelled stop ?_
    rw [raws_expansionName]
    simp [expansion, moved, absent]

/-! ### Strings in double quotes -/

/-- Bytes that mean nothing in a string are passed one by one. -/
theorem doubleQuoted_plain {xs rest : List UInt8} (fuel : Nat)
    (ahead : (bytes text).drop pos = xs ++ rest)
    (plain : ∀ b ∈ xs, b ≠ '"'.toUInt8 ∧ b ≠ '$'.toUInt8 ∧ b ≠ '\\'.toUInt8) :
    doubleQuoted text (xs.length + fuel) pos = doubleQuoted text fuel (pos + xs.length) := by
  induction xs generalizing pos with
  | nil => rw [List.length_nil, Nat.zero_add, Nat.add_zero]
  | cons b xs ih =>
    have peek : peek? text pos = some b := by
      rw [peek?, ← List.head?_drop, ahead]
      rfl
    have next : (bytes text).drop (pos + 1) = xs ++ rest := by
      rw [← List.drop_drop, ahead]
      rfl
    rw [List.forall_mem_cons] at plain
    obtain ⟨⟨double, dollar, backslash⟩, others⟩ := plain
    rw [List.length_cons, Nat.add_right_comm, doubleQuoted]
    simp only [peek, double, dollar, backslash, if_false]
    rw [ih next others, Nat.add_assoc, Nat.add_comm 1]

theorem ne_of_high {b : UInt8} (high : 128 ≤ b) {c : Char} (ascii : c.toUInt8 < 128) :
    b ≠ c.toUInt8 := by
  rintro rfl
  exact absurd high (UInt8.not_le.mpr ascii)

theorem plain_of_high {xs : List UInt8} (high : ∀ b ∈ xs, 128 ≤ b) :
    ∀ b ∈ xs, b ≠ '"'.toUInt8 ∧ b ≠ '$'.toUInt8 ∧ b ≠ '\\'.toUInt8 := fun b member =>
  ⟨ne_of_high (high b member) (by decide), ne_of_high (high b member) (by decide),
    ne_of_high (high b member) (by decide)⟩

/-- A backslash that ends the text has nothing to jump over. -/
theorem At.doubleQuoted_backslash (fuel : Nat) (here : At text ['\\'] pos) :
    doubleQuoted text (fuel + 1) pos = doubleQuoted text fuel (pos + 1) := by
  obtain ⟨b, peek, same, -⟩ := here.peek_cons
  have room : min (pos + 2) (bytes text).length = pos + 1 := by
    rw [here.length]
    exact Nat.min_eq_right (Nat.le_succ _)
  rw [doubleQuoted]
  simp only [peek, (same '\\' (by decide)).mpr rfl, room]
  rfl

/-- A plain character of a string is passed byte by byte, with one unit of fuel for each. -/
theorem At.doubleQuoted_char {c : Char} (fuel : Nat) (here : At text (c :: cs) pos)
    (unclosed : c ≠ '"') (dollar : c ≠ '$') (single : c = '\\' → cs = []) :
    doubleQuoted text (c.utf8Size + fuel) pos = doubleQuoted text fuel (pos + byteLength [c]) := by
  by_cases backslash : c = '\\'
  · obtain rfl := single backslash
    subst backslash
    rw [show '\\'.utf8Size = 1 from rfl, Nat.add_comm 1]
    exact here.doubleQuoted_backslash fuel
  have plain : ∀ b ∈ String.utf8EncodeChar c,
      b ≠ '"'.toUInt8 ∧ b ≠ '$'.toUInt8 ∧ b ≠ '\\'.toUInt8 := by
    by_cases ascii : Ascii c
    · rw [encode_ascii ascii]
      intro b member
      obtain rfl := List.mem_singleton.mp member
      exact ⟨fun same => unclosed (toUInt8_inj ascii (by decide) same),
        fun same => dollar (toUInt8_inj ascii (by decide) same),
        fun same => backslash (toUInt8_inj ascii (by decide) same)⟩
    · exact plain_of_high (encode_high ascii)
  have passed := doubleQuoted_plain fuel here.drop plain
  rwa [String.length_utf8EncodeChar] at passed

/-- The jump behind a backslash may land inside the next character; the reader then passes what is
left of it. -/
theorem At.doubleQuoted_escape {c : Char} (fuel : Nat) (here : At text ('\\' :: c :: cs) pos) :
    doubleQuoted text (c.utf8Size + fuel) pos =
      doubleQuoted text fuel (pos + byteLength ['\\', c]) := by
  obtain ⟨b, peek, same, -⟩ := here.peek_cons
  rw [(same '\\' (by decide)).mpr rfl] at peek
  obtain ⟨b, bs, split⟩ := List.exists_cons_of_ne_nil (String.utf8EncodeChar_ne_nil (c := c))
  have size := String.length_utf8EncodeChar c
  rw [split, List.length_cons] at size
  have ahead : (bytes text).drop (pos + 2) = bs ++ bytes cs := by
    rw [← List.drop_drop, here.drop, bytes_cons, bytes_cons, split, encode_ascii (by decide)]
    rfl
  have room : min (pos + 2) (bytes text).length = pos + 2 := by
    have length := here.length
    simp only [byteLength_cons, show '\\'.utf8Size = 1 from rfl] at length
    omega
  have jump : doubleQuoted text (c.utf8Size + fuel) pos =
      doubleQuoted text (bs.length + fuel) (pos + 2) := by
    rw [← size, Nat.add_right_comm, doubleQuoted]
    simp only [peek, room]
    rfl
  have total : byteLength ['\\', c] = 2 + bs.length := by
    simp only [byteLength_cons, Text.byteLength_nil, show '\\'.utf8Size = 1 from rfl]
    omega
  rw [jump, doubleQuoted_plain fuel ahead (plain_of_high (encode_tail split)), total, Nat.add_assoc]

/-- A character takes at most four calls, one for each of its bytes. -/
theorem doubleQuoted_reads {text : List Char} (cs : List Char) {fuel pos : Nat}
    (enough : 4 * cs.length < fuel) (here : At text cs pos) :
    Reads pos (Script.doubleQuoted cs).value (At text (Script.doubleQuoted cs).rest)
      (doubleQuoted text fuel pos) := by
  obtain ⟨fuel, rfl⟩ : ∃ more, fuel = more + 1 := ⟨fuel - 1, by omega⟩
  rcases split : cs with _ | ⟨c, tail⟩
  · rw [split] at here
    rw [Script.doubleQuoted_end.1, Script.doubleQuoted_end.2, doubleQuoted]
    exact ⟨pos, by simp only [here.peek_nil, raws_nil], here⟩
  rw [split] at here
  have size : cs.length = tail.length + 1 := by rw [split, List.length_cons]
  obtain ⟨b, peek, same, -⟩ := here.peek_cons
  by_cases closed : c = '"'
  · subst closed
    rw [(Script.doubleQuoted_close tail).1, (Script.doubleQuoted_close tail).2, doubleQuoted]
    refine ⟨pos + 1, ?_, here.next (by decide)⟩
    simp only [peek, (same '"' (by decide)).mpr rfl, if_true, raws_token]
    rfl
  by_cases dollar : c = '$'
  · subst dollar
    have shorter := (Script.expansion tail).le
    rw [(Script.doubleQuoted_expansion tail).1, (Script.doubleQuoted_expansion tail).2,
      doubleQuoted]
    simp only [peek, (same '$' (by decide)).mpr rfl]
    refine .cons (expansion_reads here) fun stop there => ?_
    obtain rfl := (here.behind_node (Script.expansion_yields tail)).unique there
    exact doubleQuoted_reads _ (by omega) there
  by_cases escape : ∃ d ds, c = '\\' ∧ tail = d :: ds
  · obtain ⟨d, ds, rfl, rfl⟩ := escape
    have width := d.utf8Size_le_four
    rw [List.length_cons] at size
    obtain ⟨less, spent⟩ := Nat.exists_eq_add_of_le (show d.utf8Size ≤ fuel + 1 by omega)
    rw [(Script.doubleQuoted_escape d ds).1, (Script.doubleQuoted_escape d ds).2, spent,
      here.doubleQuoted_escape]
    exact .text (doubleQuoted_reads _ (by omega) (At.advance ['\\', d] here))
  · have single : c = '\\' → tail = [] := fun backslash => by
      cases tail with
      | nil => rfl
      | cons d ds => exact absurd ⟨d, ds, backslash, rfl⟩ escape
    have width := c.utf8Size_le_four
    obtain ⟨less, spent⟩ := Nat.exists_eq_add_of_le (show c.utf8Size ≤ fuel + 1 by omega)
    rw [(Script.doubleQuoted_plain closed dollar single).1,
      (Script.doubleQuoted_plain closed dollar single).2, spent,
      here.doubleQuoted_char less closed dollar single]
    exact .text (doubleQuoted_reads _ (by omega) (At.advance [c] here))
termination_by cs.length

end FishNav.Cursor
