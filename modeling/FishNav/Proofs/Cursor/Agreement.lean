import FishNav.Proofs.Cursor.Statements

/-!
# Both readers agree

The reader by offsets ends on every text, after calls at most eight deep for each character. All of
its cuts fall between characters, and the dump of the nodes it finds is the dump of the parts: it is
accepted, and the tree is the tree of the script (`parse?_eq_tree`). Positions are words of 32 bits
there, so the text has to be shorter than that.
-/
namespace FishNav.Cursor

open Text (byteLength byteLength_append byteLength_cons byteLength_nil)

/-! ### Positions of offsets -/

theorem newlines_append (pos : Nat) (xs ys : List Char) :
    newlines pos (xs ++ ys) = newlines pos xs ++ newlines (pos + byteLength xs) ys := by
  induction xs generalizing pos with
  | nil => rfl
  | cons c xs ih =>
    rw [List.cons_append, newlines, newlines, byteLength_cons, ← Nat.add_assoc]
    split
    · next newline =>
      subst newline
      rw [ih, List.cons_append]
      rfl
    · exact ih _

/-- Lines start behind the newlines of the text. -/
theorem bounds_of_mem_newlines {pos start : Nat} {cs : List Char}
    (member : start ∈ newlines pos cs) : pos < start ∧ start ≤ pos + byteLength cs := by
  induction cs generalizing pos with
  | nil => cases member
  | cons c cs ih =>
    rw [newlines] at member
    rw [byteLength_cons]
    split at member
    · next newline =>
      subst newline
      rw [show '\n'.utf8Size = 1 from rfl]
      rcases List.mem_cons.mp member with rfl | later
      · omega
      · have bounds := ih later
        omega
    · have bounds := ih member
      have size := c.utf8Size_pos
      omega

theorem length_newlines_le (pos : Nat) (cs : List Char) :
    (newlines pos cs).length ≤ byteLength cs := by
  induction cs generalizing pos with
  | nil => exact Nat.le_refl _
  | cons c cs ih =>
    have size := c.utf8Size_pos
    rw [newlines, byteLength_cons]
    split
    · have rest := ih (pos + 1)
      rw [List.length_cons]
      omega
    · have rest := ih (pos + c.utf8Size)
      omega

theorem lineStarts_append (front back : List Char) :
    lineStarts (front ++ back) = lineStarts front ++ newlines (byteLength front) back := by
  rw [lineStarts, newlines_append, Nat.zero_add]
  rfl

theorem le_of_mem_lineStarts {start : Nat} {cs : List Char} (member : start ∈ lineStarts cs) :
    start ≤ byteLength cs := by
  rcases List.mem_cons.mp member with rfl | member
  · exact Nat.zero_le _
  · have bounds := bounds_of_mem_newlines member
    omega

/-- Up to the next newline, the lines that have started are those of the text before. -/
theorem takeWhile_lineStarts (front back : List Char) {pos : Nat} (low : byteLength front ≤ pos)
    (high : ∀ start ∈ newlines (byteLength front) back, pos < start) :
    (lineStarts (front ++ back)).takeWhile (· ≤ pos) = lineStarts front := by
  have before : ∀ start ∈ lineStarts front, decide (start ≤ pos) = true :=
    fun start member => decide_eq_true (Nat.le_trans (le_of_mem_lineStarts member) low)
  have after : (newlines (byteLength front) back).takeWhile (· ≤ pos) = [] := by
    rcases split : newlines (byteLength front) back with _ | ⟨start, more⟩
    · rfl
    · have later := high start (by simp [split])
      simp [Nat.not_le.mpr later]
  rw [lineStarts_append, List.takeWhile_append_of_pos before, after, List.append_nil]

/-- A mark counts the newlines it passes, and its column starts behind the last of them. -/
theorem position_advance (m : Mark) (fits : m.position.column ≤ m.byte) (cs : List Char) :
    (m.advance cs).position =
      ⟨m.position.line + (newlines m.byte cs).length,
        m.byte + byteLength cs - (newlines m.byte cs).getLastD (m.byte - m.position.column)⟩ := by
  induction cs generalizing m with
  | nil =>
    have column : m.byte - (m.byte - m.position.column) = m.position.column := by omega
    simp [newlines, column]
  | cons c cs ih =>
    rw [Mark.advance_cons, newlines, byteLength_cons, ← Nat.add_assoc]
    by_cases newline : c = '\n'
    · subst newline
      have step : m.step '\n' = ⟨m.byte + 1, ⟨m.position.line + 1, 0⟩⟩ := rfl
      rw [if_pos rfl, List.getLastD_cons, List.length_cons, step, ih _ (Nat.zero_le _)]
      simp only [Nat.sub_zero, show '\n'.utf8Size = 1 from rfl, Position.mk.injEq, and_true]
      omega
    · have step : m.step c =
          ⟨m.byte + c.utf8Size, ⟨m.position.line, m.position.column + c.utf8Size⟩⟩ := by
        rw [Mark.step, if_neg newline]
      rw [if_neg newline, step, ih _ (Nat.add_le_add_right fits _), Nat.add_sub_add_right]

/-- Up to the next newline, an offset is on the line of the mark behind `front`. -/
theorem position?_of_front (front back : List Char) {pos : Nat} (low : byteLength front ≤ pos)
    (high : ∀ start ∈ newlines (byteLength front) back, pos < start)
    (short : pos < Position.wordSize) :
    position? (front ++ back) pos =
      some ⟨(Mark.origin.advance front).position.line,
        (Mark.origin.advance front).position.column + (pos - byteLength front)⟩ := by
  have last : (lineStarts front)[(newlines 0 front).length]? =
      some ((newlines 0 front).getLastD 0) := by
    have eq := List.getLast?_eq_getElem? (l := 0 :: newlines 0 front)
    rw [List.getLast?_cons, List.length_cons, Nat.add_sub_cancel] at eq
    rw [List.getLastD_eq_getLast?, eq]
    rfl
  have bound : (newlines 0 front).getLastD 0 ≤ byteLength front :=
    le_of_mem_lineStarts List.getLastD_mem_cons
  have rows := length_newlines_le 0 front
  have position := position_advance .origin (Nat.le_refl 0) front
  simp only [position?, takeWhile_lineStarts front back low high]
  change (do
    let start ← (lineStarts (front ++ back))[(newlines 0 front).length]?
    if start ≤ pos then _ else _) = _
  rw [lineStarts_append, List.getElem?_append_left (Nat.lt_succ_self _), last]
  simp only [Option.bind_eq_bind, Option.bind_some, if_pos (Nat.le_trans bound low)]
  rw [position, Nat.mod_eq_of_lt (by omega), Nat.mod_eq_of_lt (by omega)]
  simp only [Mark.origin, Position.origin, Nat.zero_add, Nat.sub_zero, Option.pure_def,
    Option.some.injEq, Position.mk.injEq, true_and]
  omega

/-- The table of line starts gives the same positions as counting characters from the start. -/
theorem position?_append (front back : List Char)
    (short : byteLength (front ++ back) < Position.wordSize) :
    position? (front ++ back) (byteLength front) = some (Mark.origin.advance front).position := by
  rw [byteLength_append] at short
  rw [position?_of_front front back (Nat.le_refl _)
    (fun start member => (bounds_of_mem_newlines member).1) (by omega), Nat.sub_self, Nat.add_zero]

/-! ### Dumps -/

theorem dumpAll?_append {text : List Char} {rs ss : List Raw} {ds es : List Dump}
    (first : dumpAll? text rs = some ds) (second : dumpAll? text ss = some es) :
    dumpAll? text (rs ++ ss) = some (ds ++ es) := by
  induction rs generalizing ds with
  | nil =>
    rw [dumpAll?] at first
    obtain rfl := Option.some.inj first
    exact second
  | cons r rs ih =>
    rw [dumpAll?] at first
    simp only [Option.bind_eq_bind, Option.bind_eq_some_iff, Option.pure_def,
      Option.some.injEq] at first
    obtain ⟨d, one, ds', more, rfl⟩ := first
    rw [List.cons_append, dumpAll?, one]
    simp only [Option.bind_eq_bind, Option.bind_some, ih more]
    rfl

/-- Only keywords and punctuation are dumped under their text. -/
theorem tagOf?_of_form {text cs : List Char} {kind : Kind} {parts : List Cst} {start stop : Nat}
    (rule : Script.Form kind parts) (cut : Text.slice? text start stop = some cs) :
    tagOf? text kind start stop = some (kind.tag?.getD (String.ofList cs), kind.isNamed) := by
  rw [tagOf?, cut]
  cases rule <;> rfl

/-- A node is dumped with the positions of its ends, if its children are. -/
theorem dump?_node {kind : Kind} {parts : List Cst} (front back : List Char)
    (rule : Script.Form kind parts)
    (short : byteLength (front ++ Cst.charsOfAll parts ++ back) < Position.wordSize)
    (children : dumpAll? (front ++ Cst.charsOfAll parts ++ back) (raws (byteLength front) parts) =
      some (Cst.placeAll (Mark.origin.advance front) parts).1) :
    dump? (front ++ Cst.charsOfAll parts ++ back)
        (.node kind (byteLength front) (byteLength (front ++ Cst.charsOfAll parts))
          (raws (byteLength front) parts)) =
      some (Cst.dumpOf (Mark.origin.advance front) kind parts) := by
  have cut := Text.slice?_append front (Cst.charsOfAll parts) back
  have stop := position?_append (front ++ Cst.charsOfAll parts) back short
  have start := position?_append front (Cst.charsOfAll parts ++ back)
    (by rwa [← List.append_assoc])
  rw [← List.append_assoc] at start
  have mark : ∀ cs, (⟨byteLength cs, (Mark.origin.advance cs).position⟩ : Mark) =
      Mark.origin.advance cs := fun cs => by rw [← Mark.origin_advance_byte]
  rw [dump?]
  simp only [tagOf?_of_form rule cut, start, stop, children, Option.bind_eq_bind, Option.bind_some,
    Option.pure_def, Cst.dumpOf, mark, ← Mark.advance_append]

mutual

theorem dump?_part (front back : List Char) (p : Cst) (formed : p.Formed)
    (short : byteLength (front ++ p.chars ++ back) < Position.wordSize) :
    dumpAll? (front ++ p.chars ++ back) (raws (byteLength front) [p]) =
      some (Cst.place (Mark.origin.advance front) p).1 := by
  cases p with
  | text cs => rw [raws_text, raws_nil, dumpAll?, Cst.place]
  | node kind parts =>
    rw [Cst.formed_node, Cst.formedAll_iff] at formed
    rw [Cst.chars_node] at short ⊢
    rw [Cst.place_node, raws_node, ← byteLength_append, dumpAll?, dumpAll?,
      dump?_node front back formed.1 short (dump?_parts front back parts formed.2 short)]
    rfl

/-- The dump of offsets is the dump of marks, for all parts that obey the rules. -/
theorem dump?_parts (front back : List Char) (ps : List Cst) (formed : ∀ p ∈ ps, p.Formed)
    (short : byteLength (front ++ Cst.charsOfAll ps ++ back) < Position.wordSize) :
    dumpAll? (front ++ Cst.charsOfAll ps ++ back) (raws (byteLength front) ps) =
      some (Cst.placeAll (Mark.origin.advance front) ps).1 := by
  cases ps with
  | nil => rw [raws_nil, dumpAll?, Cst.placeAll]
  | cons p ps =>
    rw [List.forall_mem_cons] at formed
    have text : front ++ Cst.charsOfAll (p :: ps) ++ back =
        front ++ p.chars ++ (Cst.charsOfAll ps ++ back) := by simp
    rw [text] at short ⊢
    have first := dump?_part front (Cst.charsOfAll ps ++ back) p formed.1 short
    rw [← List.append_assoc (front ++ p.chars)] at short first ⊢
    have more := dump?_parts (front ++ p.chars) back ps formed.2 short
    rw [byteLength_append, Mark.advance_append] at more
    rw [raws_cons, Cst.placeAll_cons]
    exact dumpAll?_append first more

end

/-- Reading by offsets ends on every text, and no cut fails: each starts and ends between two
characters (`Text.slice?_eq_some_iff`). The dump it builds is the dump of the script, and that dump
is accepted: it loads as the tree of the script. -/
theorem parse?_eq_tree (source : String) (short : byteLength source.toList < Position.wordSize)
    (fuel : Nat) (enough : 8 * source.toList.length < fuel) :
    (∃ children stop, statements source.toList fuel [] 0 = some (children, stop) ∧
      dump? source.toList (.node .program 0 (bytes source.toList).length children) =
        some (Script.dump source).root) ∧
      (Script.dump source).load = .ok (Script.tree source) ∧
      parse? fuel source = some (Script.tree source) := by
  have loaded := Script.load_dump source
  obtain ⟨stop, found, -⟩ := statements_reads source.toList [] (by simp) source.toList fuel enough
    0 0 (.start _) (At.start _).near
  obtain ⟨chars, formed⟩ := Script.parts_spec source.toList
  rw [Cst.formed_node, Cst.formedAll_iff] at formed
  have nodes : raws 0 (Script.parts source.toList) =
      raws 0 (Script.statements [] source.toList).value := by
    rw [Script.parts, raws_append, raws_text, raws_nil, List.append_nil]
  have built := dump?_node [] [] formed.1 (by simpa [chars] using short)
    (dump?_parts [] [] _ formed.2 (by simpa [chars] using short))
  simp only [List.nil_append, List.append_nil, chars, byteLength_nil, nodes, Mark.advance_nil,
    ← Script.dump_root] at built
  rw [← length_bytes] at built
  refine ⟨⟨_, stop, found, built⟩, loaded, ?_⟩
  rw [parse?]
  simp only [found, built, Option.bind_eq_bind, Option.bind_some]
  change (Script.dump source).load.toOption = _
  rw [loaded]
  rfl

/-- A function, a substitution, a string and an index that never end, and backslashes before a
character of two bytes and at the end of the text. -/
theorem parse?_unfinished :
    byteLength "function f (echo \"\\é$x[ü\n\\".toList < Position.wordSize ∧
      8 * "function f (echo \"\\é$x[ü\n\\".toList.length < 250 ∧
      parse? 250 "function f (echo \"\\é$x[ü\n\\" =
        some (Script.tree "function f (echo \"\\é$x[ü\n\\") :=
  ⟨by decide, by decide, (parse?_eq_tree _ (by decide) 250 (by decide)).2.2⟩

end FishNav.Cursor
