import FishNav.Proofs.Script.Layout

/-!
# What stands behind a function

Behind the `end` of a function stands no further letter of a word, since `end` would not be a word
by itself otherwise; and where the `end` is missing, the text is at its end or at a closing
parenthesis (`block_ended`). `Closed p rest` says this of all functions in a part `p` with `rest`
behind it. The readers keep it up, whatever the text (`parts_closed`), so in a script no function
stops where a comment or another function starts (`stop_ne_start`).
-/
namespace FishNav

namespace Script

open Text

/-- The text is at its end, or at a character that ends words. -/
def Ended (cs : List Char) : Prop := ∀ c, cs.head? = some c → endsWord c = true

end Script

namespace Cst

mutual

/-- Behind every function in a part no word goes on; `rest` is what follows the part. -/
def Closed : Cst → List Char → Prop
  | .text _, _ => True
  | .node kind parts, rest =>
    (kind = .functionDefinition → Script.Ended rest) ∧ ClosedAll parts rest

/-- The same for parts that follow each other. -/
def ClosedAll : List Cst → List Char → Prop
  | [], _ => True
  | p :: ps, rest => Closed p (charsOfAll ps ++ rest) ∧ ClosedAll ps rest

end

theorem closed_node {kind : Kind} {parts : List Cst} {rest : List Char} :
    (Cst.node kind parts).Closed rest ↔
      (kind = .functionDefinition → Script.Ended rest) ∧ ClosedAll parts rest := by rw [Closed]

theorem closed_text (cs rest : List Char) : (Cst.text cs).Closed rest := by
  rw [Closed]
  trivial

theorem closedAll_nil (rest : List Char) : ClosedAll [] rest := by
  rw [ClosedAll]
  trivial

theorem closedAll_cons {p : Cst} {ps : List Cst} {rest : List Char} :
    ClosedAll (p :: ps) rest ↔ p.Closed (charsOfAll ps ++ rest) ∧ ClosedAll ps rest := by
  rw [ClosedAll]

theorem closed_leaf {kind : Kind} (other : kind ≠ .functionDefinition) (cs rest : List Char) :
    (leaf kind cs).Closed rest := by
  rw [leaf, closed_node, closedAll_cons]
  exact ⟨fun function => absurd function other, closed_text _ _, closedAll_nil rest⟩

theorem closed_token (cs rest : List Char) : (token cs).Closed rest :=
  closed_leaf (by decide) cs rest

theorem closedAll_append {ps qs : List Cst} {rest : List Char} :
    ClosedAll (ps ++ qs) rest ↔ ClosedAll ps (charsOfAll qs ++ rest) ∧ ClosedAll qs rest := by
  induction ps with
  | nil =>
    rw [List.nil_append]
    exact ⟨fun closed => ⟨closedAll_nil _, closed⟩, fun closed => closed.2⟩
  | cons p ps ih =>
    rw [List.cons_append, closedAll_cons, closedAll_cons, charsOfAll_append, List.append_assoc, ih,
      and_assoc]

namespace ClosedAll

variable {ps qs : List Cst} {middle rest : List Char}

theorem text (cs : List Char) (more : ClosedAll ps rest) : ClosedAll (.text cs :: ps) rest :=
  closedAll_cons.mpr ⟨closed_text _ _, more⟩

theorem token (cs : List Char) (more : ClosedAll ps rest) : ClosedAll (.token cs :: ps) rest :=
  closedAll_cons.mpr ⟨closed_token _ _, more⟩

/-- A part that was read up to `middle`, and the parts that were read from there. -/
theorem cons {p : Cst} (first : p.Closed middle) (chars : charsOfAll ps ++ rest = middle)
    (more : ClosedAll ps rest) : ClosedAll (p :: ps) rest :=
  closedAll_cons.mpr ⟨chars ▸ first, more⟩

theorem append (first : ClosedAll ps middle) (chars : charsOfAll qs ++ rest = middle)
    (more : ClosedAll qs rest) : ClosedAll (ps ++ qs) rest :=
  closedAll_append.mpr ⟨chars ▸ first, more⟩

theorem single {p : Cst} (closed : p.Closed rest) : ClosedAll [p] rest :=
  cons closed rfl (closedAll_nil rest)

/-- Parts of a node that is no function. -/
theorem node {kind : Kind} (closed : ClosedAll ps rest) (other : kind ≠ .functionDefinition) :
    (Cst.node kind ps).Closed rest :=
  closed_node.mpr ⟨fun function => absurd function other, closed⟩

end ClosedAll

end Cst

namespace Script

open Text Cst

/-! ### The end of a word and of a block -/

theorem word_ended (cs : List Char) : Ended (word cs).2 := by
  fun_induction word cs with
  | case1 => intro c none; cases none
  | case2 c cs ih => exact ih
  | case3 c cs _ ends =>
    intro d first
    obtain rfl := Option.some.inj first
    exact ends
  | case4 c cs _ _ ih => exact ih

theorem readWordFrom_ended (c : Char) (cs : List Char) : Ended (readWordFrom c cs).rest := by
  unfold readWordFrom
  split
  · exact word_ended _
  · exact word_ended _

/-- Behind a block its `end` is a word by itself, or there was nothing more to read. -/
theorem block_ended (cs : List Char) : Ended (block cs).rest := by
  rw [(block_eq cs).2]
  by_cases found : ∃ c tail, (statements [endWord] cs).rest.dropWhile isSeparator = c :: tail ∧
      (readWordFrom c tail).value = endWord
  · obtain ⟨c, tail, next, key⟩ := found
    rw [(keyword_found next key).2]
    exact readWordFrom_ended c tail
  · have other : ∀ c tail, (statements [endWord] cs).rest.dropWhile isSeparator = c :: tail →
        (readWordFrom c tail).value ≠ endWord := fun c tail next same => found ⟨c, tail, next, same⟩
    rw [(keyword_absent other).2]
    intro c first
    obtain ⟨tail, next⟩ := List.head?_eq_some_iff.mp first
    rcases statements_rest [endWord] cs c tail next with rfl | stop
    · rfl
    · exact absurd (List.mem_singleton.mp stop) (other c tail next)

/-! ### Nodes without functions -/

/-- The kinds of nodes in which there is no room for a statement. -/
def plainKinds : List Kind :=
  [.anonymous, .comment, .error, .word, .integer, .variableName, .singleQuoteString, .index,
    .variableExpansion, .doubleQuoteString]

theorem childKinds_subset_plainKinds {kind : Kind} (plain : kind ∈ plainKinds) :
    childKinds kind ⊆ plainKinds := by
  revert plain
  cases kind <;> decide

mutual

/-- Where there is no room for statements there are no functions to close. -/
theorem closed_of_plain (p : Cst) (formed : p.Formed) (plain : KindsIn plainKinds [p])
    (rest : List Char) : p.Closed rest := by
  cases p with
  | text cs => exact closed_text cs rest
  | node kind parts =>
    have kinds := plain kind parts List.mem_cons_self
    rw [formed_node, formedAll_iff] at formed
    rw [closed_node]
    refine ⟨?_, closedAll_of_plain parts formed.2 ?_ rest⟩
    · rintro rfl
      simp [plainKinds] at kinds
    · exact formed.1.kindsIn.mono (childKinds_subset_plainKinds kinds)

theorem closedAll_of_plain (ps : List Cst) (formed : ∀ p ∈ ps, p.Formed)
    (plain : KindsIn plainKinds ps) (rest : List Char) : ClosedAll ps rest := by
  cases ps with
  | nil => exact closedAll_nil rest
  | cons p ps =>
    rw [List.forall_mem_cons] at formed
    have split := kindsIn_append.mp (show KindsIn plainKinds ([p] ++ ps) from plain)
    rw [closedAll_cons]
    exact ⟨closed_of_plain p formed.1 split.1 _, closedAll_of_plain ps formed.2 split.2 rest⟩

end

theorem Yields.closed {shape : List Cst → Prop} {text rest : List Char} {parts : List Cst}
    (read : Yields shape text parts rest) (plain : KindsIn plainKinds parts)
    (after : List Char) : ClosedAll parts after :=
  closedAll_of_plain parts read.formed plain after

theorem keyword_closed (gap : Char → Bool) (key cs rest : List Char) :
    ClosedAll (keyword gap key cs).value rest := by
  have read := keyword_yields gap key cs
  exact read.closed (read.shape.kindsIn.mono (by decide)) rest

theorem missing_closed (cs rest : List Char) : (missing cs).value.Closed rest := by
  cases cs with
  | nil => exact closed_leaf (by decide) _ _
  | cons c cs => exact closed_leaf (by decide) _ _

/-- Only a substitution holds statements. -/
theorem piece_plain {c : Char} (cs : List Char) (other : c ≠ '(') :
    (piece c cs).value.HasKind plainKinds := by
  by_cases dollar : c = '$'
  · subst dollar
    rw [piece_expansion]
    exact (expansion_yields cs).kind.mono (by decide)
  by_cases double : c = '"'
  · subst double
    exact ⟨.doubleQuoteString, by decide, _, (piece_double cs).1⟩
  by_cases single : c = '\''
  · subst single
    rw [piece_single]
    exact (singleQuoted_yields cs).kind.mono (by decide)
  · rw [(piece_word cs dollar double single other).1]
    exact (wordLeaf_spec (readWordFrom_ne_nil c cs)).2.1.mono (by decide)

theorem closed_argumentOf {ps : List Cst} {rest : List Char} (closed : ClosedAll ps rest) :
    (argumentOf ps).Closed rest := by
  unfold argumentOf
  split
  · exact (closedAll_cons.mp closed).1
  · exact closed.node (by decide)

/-! ### Readers -/

mutual

/-- All readers leave their functions closed, by induction on what they read. -/
theorem statements_closed (stops : List (List Char)) (cs : List Char) :
    ClosedAll (statements stops cs).value (statements stops cs).rest := by
  rcases statements_cases stops cs with none | ⟨tail, next⟩ | ⟨c, tail, next, close, hash, go⟩
  · rw [none.1]
    exact closedAll_nil _
  · have shorter := length_lt_of_dropWhile next
    have shorter' := length_dropWhile_le (· != '\n') tail
    obtain ⟨value, rest⟩ := statements_comment stops next
    rw [value, rest]
    exact .text _ (.cons (closed_leaf (by decide) _ _) rfl (statements_closed stops _))
  · have shorter := length_lt_of_dropWhile next
    have shorter' := (statement c tail).le
    obtain ⟨value, rest⟩ := statements_step next close hash go
    rw [value, rest]
    exact .text _ (.cons (statement_closed c tail) (statements_yields stops _).chars
      (statements_closed stops _))
termination_by 4 * cs.length + 3

theorem block_closed (cs : List Char) : ClosedAll (block cs).value (block cs).rest := by
  obtain ⟨value, rest⟩ := block_eq cs
  rw [value, rest]
  exact .append (statements_closed [endWord] cs) (keyword_yields _ _ _).chars
    (keyword_closed _ _ _ _)
termination_by 4 * cs.length + 4

theorem statement_closed (c : Char) (cs : List Char) :
    (statement c cs).value.Closed (statement c cs).rest := by
  have shorter := (readWordFrom c cs).le
  by_cases function : (readWordFrom c cs).value = functionWord
  · have shorter' := (arguments (readWordFrom c cs).rest).le
    obtain ⟨value, rest⟩ := statement_function function
    rw [value, rest, closed_node]
    refine ⟨fun _ => block_ended _, .token _ ?_⟩
    exact .append (arguments_closed _) (block_yields _).chars (block_closed _)
  by_cases loop : (readWordFrom c cs).value = forWord
  · obtain ⟨value, rest⟩ := statement_for loop
    rw [value, rest]
    generalize (readWordFrom c cs).rest = start at shorter ⊢
    have shorter₁ := (skip isBlank start).le
    generalize skip isBlank start = gap at shorter₁ ⊢
    have shorter₂ := (readWord gap.rest).le
    generalize readWord gap.rest = name at shorter₂ ⊢
    have shorter₃ := (keyword isBlank inWord name.rest).le
    have link := keyword_closed isBlank inWord name.rest
    generalize keyword isBlank inWord name.rest = key at shorter₃ link ⊢
    have shorter₄ := (arguments key.rest).le
    refine ClosedAll.node (.token _ (.text _ ?_)) (by decide)
    refine .cons (closed_leaf (by decide) _ _) rfl ?_
    exact .append (.append (link _) (arguments_yields _).chars (arguments_closed _))
      (block_yields _).chars (block_closed _)
  by_cases loop : (readWordFrom c cs).value = whileWord
  · have shorter' := (condition (readWordFrom c cs).rest).le
    obtain ⟨value, rest⟩ := statement_while loop
    rw [value, rest]
    refine ClosedAll.node (.token _ ?_) (by decide)
    exact .append (condition_closed _) (block_yields _).chars (block_closed _)
  by_cases begins : (readWordFrom c cs).value = beginWord
  · obtain ⟨value, rest⟩ := statement_begin begins
    rw [value, rest]
    exact ClosedAll.node (.token _ (block_closed _)) (by decide)
  by_cases conditional : (readWordFrom c cs).value = ifWord
  · have shorter₁ := (branch (readWordFrom c cs).rest).le
    have shorter₂ := (elseClauses (branch (readWordFrom c cs).rest).rest).le
    obtain ⟨value, rest⟩ := statement_if conditional
    rw [value, rest]
    refine ClosedAll.node (.token _ ?_) (by decide)
    exact .append (.append (branch_closed _) (elseClauses_yields _).chars (elseClauses_closed _))
      (keyword_yields _ _ _).chars (keyword_closed _ _ _ _)
  have other : (readWordFrom c cs).value ∉ openers := by simp [openers, *]
  have shorter' := (argument c cs).le
  obtain ⟨value, rest⟩ := statement_command other
  rw [value, rest]
  refine ClosedAll.node ?_ (by decide)
  exact .cons (argument_closed c cs) (arguments_yields _).chars (arguments_closed _)
termination_by 4 * cs.length + 6

theorem branch_closed (cs : List Char) : ClosedAll (branch cs).value (branch cs).rest := by
  have shorter := (condition cs).le
  obtain ⟨value, rest⟩ := branch_eq cs
  rw [value, rest]
  exact .append (condition_closed cs) (statements_yields _ _).chars (statements_closed _ _)
termination_by 4 * cs.length + 4

theorem elseClauses_closed (cs : List Char) :
    ClosedAll (elseClauses cs).value (elseClauses cs).rest := by
  by_cases found : ∃ c tail, cs.dropWhile isSeparator = c :: tail ∧
      (readWordFrom c tail).value = elseWord
  · obtain ⟨c, tail, next, key⟩ := found
    have shorter := length_lt_of_dropWhile next
    have shorter₁ := (readWordFrom c tail).le
    have shorter₂ := (elseClause (readWordFrom c tail).rest).le
    obtain ⟨value, rest⟩ := elseClauses_step next key
    rw [value, rest]
    exact .text _ (.cons (elseClause_closed _) (elseClauses_yields _).chars (elseClauses_closed _))
  · rw [(elseClauses_stop fun c tail next same => found ⟨c, tail, next, same⟩).1]
    exact closedAll_nil _
termination_by 4 * cs.length + 3

theorem elseClause_closed (cs : List Char) :
    (elseClause cs).value.Closed (elseClause cs).rest := by
  by_cases key : (word (cs.dropWhile isBlank)).1 = ifWord
  · have shorter := length_dropWhile_le isBlank cs
    have shorter' := length_word_le (cs.dropWhile isBlank)
    obtain ⟨value, rest⟩ := elseClause_if key
    rw [value, rest]
    exact ClosedAll.node (.token _ (.text _ (.token _ (branch_closed _)))) (by decide)
  · obtain ⟨value, rest⟩ := elseClause_plain key
    rw [value, rest]
    exact ClosedAll.node (.token _ (statements_closed _ _)) (by decide)
termination_by 4 * cs.length + 5

theorem condition_closed (cs : List Char) :
    ClosedAll (condition cs).value (condition cs).rest := by
  have shorter := length_dropWhile_le isBlank cs
  by_cases none : (arguments (cs.dropWhile isBlank)).value = []
  · rw [(condition_missing none).1]
    exact .text _ (.single (missing_closed _ _))
  · obtain ⟨value, rest⟩ := condition_command none
    rw [value, rest]
    exact .text _ (.single ((arguments_closed _).node (by decide)))
termination_by 4 * cs.length + 3

theorem arguments_closed (cs : List Char) :
    ClosedAll (arguments cs).value (arguments cs).rest := by
  rcases arguments_cases cs with ⟨c, tail, next, go⟩ | stop
  · have shorter := length_lt_of_dropWhile next
    have shorter' := (argument c tail).le
    obtain ⟨value, rest⟩ := arguments_step next go
    rw [value, rest]
    exact .text _ (.cons (argument_closed c tail) (arguments_yields _).chars (arguments_closed _))
  · rw [(arguments_stop stop).1]
    exact closedAll_nil _
termination_by 4 * cs.length + 2

theorem argument_closed (c : Char) (cs : List Char) :
    (argument c cs).value.Closed (argument c cs).rest := by
  have shorter := (piece c cs).le
  obtain ⟨value, rest⟩ := argument_eq c cs
  rw [value, rest]
  exact closed_argumentOf (.cons (piece_closed c cs) (pieces_yields _).chars (pieces_closed _))
termination_by 4 * cs.length + 5

theorem pieces_closed (cs : List Char) : ClosedAll (pieces cs).value (pieces cs).rest := by
  rcases cs with _ | ⟨c, cs⟩
  · rw [(pieces_stop [] (by simp)).1]
    exact closedAll_nil _
  cases ends : endsArgument c with
  | true =>
    rw [(pieces_stop (c :: cs) (by simpa using ends)).1]
    exact closedAll_nil _
  | false =>
    have shorter := (piece c cs).le
    obtain ⟨value, rest⟩ := pieces_step cs ends
    rw [value, rest]
    exact .cons (piece_closed c cs) (pieces_yields _).chars (pieces_closed _)
termination_by 4 * cs.length + 1

theorem piece_closed (c : Char) (cs : List Char) :
    (piece c cs).value.Closed (piece c cs).rest := by
  by_cases paren : c = '('
  · subst paren
    obtain ⟨value, rest⟩ := piece_substitution cs
    have close := closing_yields ')' ((statements [] cs).rest.dropWhile isSeparator)
    have token : KindsIn plainKinds
        (closing ')' ((statements [] cs).rest.dropWhile isSeparator)).value :=
      kindsIn_of_hasKind fun p member => ⟨.anonymous, by decide, _, close.shape p member⟩
    rw [value, rest]
    refine ClosedAll.node (.token _ ?_) (by decide)
    refine .append (statements_closed [] cs) ?_ (.text _ (close.closed token _))
    simp [skip, close.chars]
  · have plain := kindsIn_cons (piece_plain cs paren) kindsIn_nil
    exact closed_of_plain _ (piece_yields c cs).formed plain _
termination_by 4 * cs.length + 4

end

/-- Behind each function of a script no word goes on. -/
theorem parts_closed (cs : List Char) : ClosedAll (parts cs) [] :=
  .append (statements_closed [] cs) (by simp) (.text _ (closedAll_nil []))

/-! ### Functions in the tree -/

open Node (Descends)

variable {source : String} {n f e : Node}

/-- Every node stands for a node of the concrete syntax behind which no word goes on. -/
theorem exists_closed (inside : Descends (root source) n) :
    ∃ front parts back, Stands source.toList front parts n.self ∧
      source.toList = front ++ charsOfAll parts ++ back ∧
      (Cst.node n.kind parts).Closed back := by
  induction inside with
  | here =>
    obtain ⟨program, stands⟩ := stands_root source
    refine ⟨[], parts source.toList, [], stands, ?_, ?_⟩
    · rw [(parts_spec source.toList).1, List.nil_append, List.append_nil]
    · exact (parts_closed source.toList).node (by simp [program])
  | down _ step ih =>
    obtain ⟨front, parts, back, stands, split, closed⟩ := ih
    obtain ⟨i, s, found, rfl⟩ := Node.mem_children_iff.mp step
    obtain ⟨before, inner, after, rfl, -, child⟩ := stands.child found
    refine ⟨front ++ charsOfAll before, inner, charsOfAll after ++ back, child, ?_, ?_⟩
    · rw [split]
      simp
    · have below := (closedAll_append.mp (closed_node.mp closed).2).2
      exact (closedAll_cons.mp below).1

/-- A comment and a function start with a character that could go on a word. -/
theorem Form.opening_letter {kind : Kind} {parts : List Cst} (rule : Form kind parts)
    (statement : kind = .comment ∨ kind = .functionDefinition) :
    ∃ c more, charsOfAll parts = c :: more ∧ endsWord c = false := by
  rcases statement with rfl | rfl
  · cases rule with
    | comment cs => exact ⟨'#', cs, by simp, by decide⟩
  · cases rule with
    | functionDefinition => exact ⟨'f', _, by simp [functionWord]; rfl, by decide⟩

/-- A place in a text is known by its position. -/
theorem eq_of_position {front back front' back' : List Char}
    (split : front ++ back = front' ++ back')
    (same : (Mark.origin.advance front).position = (Mark.origin.advance front').position) :
    back = back' := by
  rcases List.append_eq_append_iff.mp split with ⟨more, rfl, rest⟩ | ⟨more, rfl, rest⟩
  · cases more with
    | nil => exact rest
    | cons c more =>
      exact absurd same (ne_of_lt (position_lt_append front (List.cons_ne_nil c more)))
  · cases more with
    | nil => exact rest.symm
    | cons c more =>
      exact absurd same.symm (ne_of_lt (position_lt_append front' (List.cons_ne_nil c more)))

/-- No function stops where a comment or a function starts. -/
theorem stop_ne_start (insideF : Descends (root source) f) (function : f.kind = .functionDefinition)
    (insideE : Descends (root source) e)
    (statement : e.kind = .comment ∨ e.kind = .functionDefinition) : f.stop ≠ e.start := by
  intro touch
  obtain ⟨front, parts, back, stands, split, closed⟩ := exists_closed insideF
  obtain ⟨front', parts', stands'⟩ := exists_stands insideE
  obtain ⟨back', split'⟩ := stands'.within
  obtain ⟨c, more, opening, letter⟩ := stands'.rule.opening_letter statement
  rw [stands.stop, stands'.start] at touch
  have same := eq_of_position (split.symm.trans (split'.trans (List.append_assoc _ _ _))) touch
  have ended := (closed_node.mp closed).1 function c (by rw [same, opening]; rfl)
  rw [letter] at ended
  cases ended

end Script

end FishNav
