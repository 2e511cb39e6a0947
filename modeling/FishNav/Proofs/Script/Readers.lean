import FishNav.Script.Parser
import Mathlib.Data.Nat.Init

/-!
# What each reader does

One equation for each way in which a reader can go on: it stops where it is, or it hands the text
behind a gap to other readers and puts their parts together. The conditions are on the text alone,
so a proof about the readers follows these equations and never opens the readers themselves.
-/
namespace FishNav

namespace Text

variable {p : Char → Bool} {cs tail : List Char} {c : Char}

theorem length_lt_of_dropWhile (found : cs.dropWhile p = c :: tail) : tail.length < cs.length := by
  have bound := length_dropWhile_le p cs
  rw [found, List.length_cons] at bound
  omega

theorem takeWhile_append_of_dropWhile (found : cs.dropWhile p = c :: tail) :
    cs.takeWhile p ++ c :: tail = cs := by
  rw [← found, List.takeWhile_append_dropWhile]

theorem not_of_dropWhile (found : cs.dropWhile p = c :: tail) : p c = false := by
  have stopped := List.head?_dropWhile_not p cs
  rw [found] at stopped
  simpa using stopped

theorem of_mem_takeWhile (member : c ∈ cs.takeWhile p) : p c = true :=
  List.all_eq_true.mp (List.all_takeWhile (p := p) (l := cs)) c member

theorem next?_eq_none (found : cs.dropWhile p = []) : next? p cs = none := by
  rw [next?]
  split
  · rfl
  · next other => simp [found] at other

theorem next?_eq_some (found : cs.dropWhile p = c :: tail) :
    next? p cs = some ⟨cs.takeWhile p, c, tail, length_lt_of_dropWhile found⟩ := by
  rw [next?]
  split
  · next other => simp [found] at other
  · next other =>
    obtain ⟨rfl, rfl⟩ := List.cons.inj (found.symm.trans other)
    rfl

end Text

namespace Script

open Text
open Reading (here)

variable {stops : List (List Char)} {cs tail : List Char} {c : Char}

/-! ### Words and keywords -/

theorem readWordFrom_append (c : Char) (cs : List Char) :
    (readWordFrom c cs).value ++ (readWordFrom c cs).rest = c :: cs := by
  unfold readWordFrom
  split <;> simp [readWord, word_append]

theorem readWordFrom_ne_nil (c : Char) (cs : List Char) : (readWordFrom c cs).value ≠ [] := by
  unfold readWordFrom
  split <;> simp

/-- The keyword that stands behind the gap is a token. -/
theorem keyword_found {gap : Char → Bool} {key : List Char} (next : cs.dropWhile gap = c :: tail)
    (found : (readWordFrom c tail).value = key) :
    (keyword gap key cs).value = [.text (cs.takeWhile gap), .token key] ∧
      (keyword gap key cs).rest = (readWordFrom c tail).rest := by
  simp only [keyword, next?_eq_some next, found, if_true]
  exact ⟨rfl, rfl⟩

/-- Another word, or none, behind the gap leaves an empty token there. -/
theorem keyword_absent {gap : Char → Bool} {key : List Char}
    (other : ∀ c tail, cs.dropWhile gap = c :: tail → (readWordFrom c tail).value ≠ key) :
    (keyword gap key cs).value = [.text (cs.takeWhile gap), .token []] ∧
      (keyword gap key cs).rest = cs.dropWhile gap := by
  rcases next : cs.dropWhile gap with _ | ⟨c, tail⟩
  · simp only [keyword, next?_eq_none next, keyword.absent, skip, Reading.map_value,
      Reading.map_rest, next, and_self]
  · simp only [keyword, next?_eq_some next, if_neg (other c tail next), keyword.absent, skip,
      Reading.map_value, Reading.map_rest, next, and_self]

/-! ### Arguments without substitutions -/

theorem index_eq (cs : List Char) :
    let value := cs.takeWhile isIndexChar
    let close := closing ']' (cs.dropWhile isIndexChar)
    (index cs).value =
        .node .index (.token ['['] :: (if value = [] then [] else [wordLeaf value]) ++
          close.value) ∧
      (index cs).rest = close.rest := ⟨rfl, rfl⟩

/-- The dollar sign and the name of an expansion; the name may be missing. -/
def expansionName (cs : List Char) : List Cst :=
  .token ['$'] ::
    if cs.takeWhile isNameChar = [] then [] else [.leaf .variableName (cs.takeWhile isNameChar)]

theorem expansion_index (next : cs.dropWhile isNameChar = '[' :: tail) :
    (expansion cs).value = .node .variableExpansion (expansionName cs ++ [(index tail).value]) ∧
      (expansion cs).rest = (index tail).rest := by
  unfold expansion
  dsimp only [skip]
  generalize length_dropWhile_le isNameChar cs = le
  generalize cs.dropWhile isNameChar = rest at next le ⊢
  subst next
  exact ⟨rfl, rfl⟩

theorem expansion_plain (other : ∀ tail, cs.dropWhile isNameChar ≠ '[' :: tail) :
    (expansion cs).value = .node .variableExpansion (expansionName cs) ∧
      (expansion cs).rest = cs.dropWhile isNameChar := by
  unfold expansion
  dsimp only [skip]
  generalize length_dropWhile_le isNameChar cs = le
  generalize cs.dropWhile isNameChar = rest at other le ⊢
  split
  · exact absurd rfl (other _)
  · exact ⟨rfl, rfl⟩

theorem doubleQuoted_end : (doubleQuoted []).value = [] ∧ (doubleQuoted []).rest = [] := by
  rw [doubleQuoted]
  exact ⟨rfl, rfl⟩

theorem doubleQuoted_close (cs : List Char) :
    (doubleQuoted ('"' :: cs)).value = [.token ['"']] ∧ (doubleQuoted ('"' :: cs)).rest = cs := by
  rw [doubleQuoted]
  exact ⟨rfl, rfl⟩

theorem doubleQuoted_expansion (cs : List Char) :
    (doubleQuoted ('$' :: cs)).value =
        (expansion cs).value :: (doubleQuoted (expansion cs).rest).value ∧
      (doubleQuoted ('$' :: cs)).rest = (doubleQuoted (expansion cs).rest).rest := by
  rw [doubleQuoted]
  exact ⟨rfl, rfl⟩

theorem doubleQuoted_escape (c : Char) (cs : List Char) :
    (doubleQuoted ('\\' :: c :: cs)).value = .text ['\\', c] :: (doubleQuoted cs).value ∧
      (doubleQuoted ('\\' :: c :: cs)).rest = (doubleQuoted cs).rest := by
  rw [doubleQuoted]
  exact ⟨rfl, rfl⟩

theorem doubleQuoted_plain (unclosed : c ≠ '"') (plain : c ≠ '$')
    (single : c = '\\' → cs = []) :
    (doubleQuoted (c :: cs)).value = .text [c] :: (doubleQuoted cs).value ∧
      (doubleQuoted (c :: cs)).rest = (doubleQuoted cs).rest := by
  rw [doubleQuoted]
  · exact ⟨rfl, rfl⟩
  · exact unclosed
  · exact plain
  · rintro d ds rfl rfl
    exact absurd (single rfl) (List.cons_ne_nil d ds)

theorem singleQuoted_closed (next : cs.dropWhile (· != '\'') = c :: tail) :
    (singleQuoted cs).value =
        .leaf .singleQuoteString ('\'' :: cs.takeWhile (· != '\'') ++ [c]) ∧
      (singleQuoted cs).rest = tail := by
  unfold singleQuoted
  simp only [skip]
  split
  · next found _ =>
    obtain ⟨rfl, rfl⟩ := List.cons.inj (next.symm.trans found)
    exact ⟨rfl, rfl⟩
  · next other _ => exact absurd (next.symm.trans other) (List.cons_ne_nil c tail)

theorem singleQuoted_open (next : cs.dropWhile (· != '\'') = []) :
    (singleQuoted cs).value = .leaf .singleQuoteString ('\'' :: cs.takeWhile (· != '\'')) ∧
      (singleQuoted cs).rest = [] := by
  unfold singleQuoted
  simp only [skip]
  split
  · next found _ => exact absurd (found.symm.trans next) (List.cons_ne_nil _ _)
  · exact ⟨rfl, rfl⟩

/-! ### Statements -/

theorem statements_end (next : cs.dropWhile isSeparator = []) :
    (statements stops cs).value = [] ∧ (statements stops cs).rest = cs := by
  rw [statements, next?_eq_none next]
  exact ⟨rfl, rfl⟩

theorem statements_close (next : cs.dropWhile isSeparator = ')' :: tail) :
    (statements stops cs).value = [] ∧ (statements stops cs).rest = cs := by
  rw [statements, next?_eq_some next]
  exact ⟨rfl, rfl⟩

theorem statements_comment (stops : List (List Char))
    (next : cs.dropWhile isSeparator = '#' :: tail) :
    (statements stops cs).value =
        .text (cs.takeWhile isSeparator) :: .leaf .comment ('#' :: tail.takeWhile (· != '\n')) ::
          (statements stops (tail.dropWhile (· != '\n'))).value ∧
      (statements stops cs).rest = (statements stops (tail.dropWhile (· != '\n'))).rest := by
  rw [statements, next?_eq_some next]
  exact ⟨rfl, rfl⟩

/-- A stop word ends the statements and stays where it is. -/
theorem statements_stop (next : cs.dropWhile isSeparator = c :: tail) (unclosed : c ≠ ')')
    (plain : c ≠ '#') (stop : stops.contains (readWordFrom c tail).value = true) :
    (statements stops cs).value = [] ∧ (statements stops cs).rest = cs := by
  rw [statements, next?_eq_some next]
  simp only [unclosed, plain, stop, if_false, if_true]
  exact ⟨rfl, rfl⟩

theorem statements_step (next : cs.dropWhile isSeparator = c :: tail) (unclosed : c ≠ ')')
    (plain : c ≠ '#') (go : stops.contains (readWordFrom c tail).value = false) :
    (statements stops cs).value =
        .text (cs.takeWhile isSeparator) :: (statement c tail).value ::
          (statements stops (statement c tail).rest).value ∧
      (statements stops cs).rest = (statements stops (statement c tail).rest).rest := by
  rw [statements, next?_eq_some next]
  simp only [unclosed, plain, go, if_false, Bool.false_eq_true]
  exact ⟨rfl, rfl⟩

/-- Statements end where they are, or go on with a comment or with a statement of another kind. -/
theorem statements_cases (stops : List (List Char)) (cs : List Char) :
    ((statements stops cs).value = [] ∧ (statements stops cs).rest = cs) ∨
      (∃ tail, cs.dropWhile isSeparator = '#' :: tail) ∨
      ∃ c tail, cs.dropWhile isSeparator = c :: tail ∧ c ≠ ')' ∧ c ≠ '#' ∧
        stops.contains (readWordFrom c tail).value = false := by
  rcases next : cs.dropWhile isSeparator with _ | ⟨c, tail⟩
  · exact Or.inl (statements_end next)
  by_cases close : c = ')'
  · subst close
    exact Or.inl (statements_close next)
  by_cases hash : c = '#'
  · subst hash
    exact Or.inr (Or.inl ⟨tail, rfl⟩)
  cases go : stops.contains (readWordFrom c tail).value with
  | true => exact Or.inl (statements_stop next close hash go)
  | false => exact Or.inr (Or.inr ⟨c, tail, rfl, close, hash, go⟩)

theorem block_eq (cs : List Char) :
    let close := keyword isSeparator endWord (statements [endWord] cs).rest
    (block cs).value = (statements [endWord] cs).value ++ close.value ∧
      (block cs).rest = close.rest := by
  rw [block]
  exact ⟨rfl, rfl⟩

theorem branch_eq (cs : List Char) :
    let body := statements [endWord, elseWord] (condition cs).rest
    (branch cs).value = (condition cs).value ++ body.value ∧ (branch cs).rest = body.rest := by
  rw [branch]
  exact ⟨rfl, rfl⟩

/-! The statement that starts with a keyword, and the command that starts with another word. -/

theorem statement_function (key : (readWordFrom c cs).value = functionWord) :
    let header := arguments (readWordFrom c cs).rest
    (statement c cs).value =
        .node .functionDefinition
          (.token functionWord :: header.value ++ (block header.rest).value) ∧
      (statement c cs).rest = (block header.rest).rest := by
  rw [statement]
  simp only [key]
  exact ⟨rfl, rfl⟩

theorem statement_for (key : (readWordFrom c cs).value = forWord) :
    let gap := skip isBlank (readWordFrom c cs).rest
    let link := keyword isBlank inWord (readWord gap.rest).rest
    let header := arguments link.rest
    (statement c cs).value =
        .node .forStatement
          (.token forWord :: .text gap.value :: .leaf .variableName (readWord gap.rest).value ::
            link.value ++ header.value ++ (block header.rest).value) ∧
      (statement c cs).rest = (block header.rest).rest := by
  rw [statement]
  simp only [key]
  exact ⟨rfl, rfl⟩

theorem statement_while (key : (readWordFrom c cs).value = whileWord) :
    let test := condition (readWordFrom c cs).rest
    (statement c cs).value =
        .node .whileStatement (.token whileWord :: test.value ++ (block test.rest).value) ∧
      (statement c cs).rest = (block test.rest).rest := by
  rw [statement]
  simp only [key]
  exact ⟨rfl, rfl⟩

theorem statement_begin (key : (readWordFrom c cs).value = beginWord) :
    (statement c cs).value =
        .node .beginStatement (.token beginWord :: (block (readWordFrom c cs).rest).value) ∧
      (statement c cs).rest = (block (readWordFrom c cs).rest).rest := by
  rw [statement]
  simp only [key]
  exact ⟨rfl, rfl⟩

theorem statement_if (key : (readWordFrom c cs).value = ifWord) :
    let branch := branch (readWordFrom c cs).rest
    let clauses := elseClauses branch.rest
    let close := keyword isSeparator endWord clauses.rest
    (statement c cs).value =
        .node .ifStatement (.token ifWord :: branch.value ++ clauses.value ++ close.value) ∧
      (statement c cs).rest = close.rest := by
  rw [statement]
  simp only [key]
  exact ⟨rfl, rfl⟩

/-- The words that open a statement of their own. -/
def openers : List (List Char) := [functionWord, forWord, whileWord, beginWord, ifWord]

theorem statement_command (other : (readWordFrom c cs).value ∉ openers) :
    let first := argument c cs
    (statement c cs).value = .node .command (first.value :: (arguments first.rest).value) ∧
      (statement c cs).rest = (arguments first.rest).rest := by
  simp only [openers, List.mem_cons, List.not_mem_nil, or_false, not_or] at other
  obtain ⟨noFunction, noFor, noWhile, noBegin, noIf⟩ := other
  rw [statement]
  simp only [noFunction, noFor, noWhile, noBegin, noIf, if_false]
  exact ⟨rfl, rfl⟩

/-! ### Clauses and conditions -/

theorem elseClauses_stop
    (other : ∀ c tail, cs.dropWhile isSeparator = c :: tail →
      (readWordFrom c tail).value ≠ elseWord) :
    (elseClauses cs).value = [] ∧ (elseClauses cs).rest = cs := by
  rw [elseClauses]
  rcases next : cs.dropWhile isSeparator with _ | ⟨c, tail⟩
  · rw [next?_eq_none next]
    exact ⟨rfl, rfl⟩
  · simp only [next?_eq_some next, if_neg (other c tail next)]
    exact ⟨rfl, rfl⟩

theorem elseClauses_step (next : cs.dropWhile isSeparator = c :: tail)
    (key : (readWordFrom c tail).value = elseWord) :
    let clause := elseClause (readWordFrom c tail).rest
    (elseClauses cs).value =
        .text (cs.takeWhile isSeparator) :: clause.value :: (elseClauses clause.rest).value ∧
      (elseClauses cs).rest = (elseClauses clause.rest).rest := by
  rw [elseClauses]
  simp only [next?_eq_some next, key, if_true]
  exact ⟨rfl, rfl⟩

theorem elseClause_if (key : (word (cs.dropWhile isBlank)).1 = ifWord) :
    let branch := branch (word (cs.dropWhile isBlank)).2
    (elseClause cs).value =
        .node .elseIfClause
          (.token elseWord :: .text (cs.takeWhile isBlank) :: .token ifWord :: branch.value) ∧
      (elseClause cs).rest = branch.rest := by
  rw [elseClause]
  simp only [skip, readWord, key, if_true]
  exact ⟨rfl, rfl⟩

theorem elseClause_plain (other : (word (cs.dropWhile isBlank)).1 ≠ ifWord) :
    (elseClause cs).value =
        .node .elseClause (.token elseWord :: (statements [endWord] cs).value) ∧
      (elseClause cs).rest = (statements [endWord] cs).rest := by
  rw [elseClause]
  simp only [skip, readWord, other, if_false]
  exact ⟨rfl, rfl⟩

/-- Where no command stands in the place of a condition, one character, if there is one, is taken as
an error. -/
theorem condition_missing (none : (arguments (cs.dropWhile isBlank)).value = []) :
    let found := missing (cs.dropWhile isBlank)
    (condition cs).value = [.text (cs.takeWhile isBlank), found.value] ∧
      (condition cs).rest = found.rest := by
  rw [condition]
  simp only [skip, none, List.isEmpty_nil, if_true]
  exact ⟨rfl, rfl⟩

theorem condition_command (some : (arguments (cs.dropWhile isBlank)).value ≠ []) :
    let parts := arguments (cs.dropWhile isBlank)
    (condition cs).value = [.text (cs.takeWhile isBlank), .node .command parts.value] ∧
      (condition cs).rest = parts.rest := by
  have nonempty := List.isEmpty_eq_false_iff.mpr some
  rw [condition]
  simp only [skip, nonempty, Bool.false_eq_true, if_false]
  exact ⟨rfl, rfl⟩

/-! ### Arguments -/

theorem arguments_stop
    (ends : ∀ c tail, cs.dropWhile isBlank = c :: tail → endsLine c = true) :
    (arguments cs).value = [] ∧ (arguments cs).rest = cs := by
  rw [arguments]
  rcases next : cs.dropWhile isBlank with _ | ⟨c, tail⟩
  · rw [next?_eq_none next]
    exact ⟨rfl, rfl⟩
  · simp only [next?_eq_some next, ends c tail next, if_true]
    exact ⟨rfl, rfl⟩

theorem arguments_step (next : cs.dropWhile isBlank = c :: tail) (go : endsLine c = false) :
    let first := argument c tail
    (arguments cs).value =
        .text (cs.takeWhile isBlank) :: first.value :: (arguments first.rest).value ∧
      (arguments cs).rest = (arguments first.rest).rest := by
  rw [arguments]
  simp only [next?_eq_some next, go, Bool.false_eq_true, if_false]
  exact ⟨rfl, rfl⟩

theorem argument_eq (c : Char) (cs : List Char) :
    let more := pieces (piece c cs).rest
    (argument c cs).value = argumentOf ((piece c cs).value :: more.value) ∧
      (argument c cs).rest = more.rest := by
  rw [argument]
  exact ⟨rfl, rfl⟩

theorem pieces_stop (cs : List Char) (ends : ∀ c, cs.head? = some c → endsArgument c = true) :
    (pieces cs).value = [] ∧ (pieces cs).rest = cs := by
  cases cs with
  | nil =>
    rw [pieces]
    exact ⟨rfl, rfl⟩
  | cons c cs =>
    rw [pieces, if_pos (ends c rfl)]
    exact ⟨rfl, rfl⟩

theorem pieces_step (cs : List Char) (go : endsArgument c = false) :
    (pieces (c :: cs)).value = (piece c cs).value :: (pieces (piece c cs).rest).value ∧
      (pieces (c :: cs)).rest = (pieces (piece c cs).rest).rest := by
  rw [pieces]
  simp only [go, Bool.false_eq_true, if_false]
  exact ⟨rfl, rfl⟩

theorem piece_expansion (cs : List Char) : piece '$' cs = expansion cs := by
  rw [piece]
  rfl

theorem piece_double (cs : List Char) :
    (piece '"' cs).value = .node .doubleQuoteString (.token ['"'] :: (doubleQuoted cs).value) ∧
      (piece '"' cs).rest = (doubleQuoted cs).rest := by
  rw [piece]
  exact ⟨rfl, rfl⟩

theorem piece_single (cs : List Char) : piece '\'' cs = singleQuoted cs := by
  rw [piece]
  rfl

theorem piece_substitution (cs : List Char) :
    let body := statements [] cs
    let gap := skip isSeparator body.rest
    let close := closing ')' gap.rest
    (piece '(' cs).value =
        .node .commandSubstitution
          (.token ['('] :: body.value ++ .text gap.value :: close.value) ∧
      (piece '(' cs).rest = close.rest := by
  rw [piece]
  exact ⟨rfl, rfl⟩

theorem piece_word (cs : List Char) (dollar : c ≠ '$') (double : c ≠ '"') (single : c ≠ '\'')
    (paren : c ≠ '(') :
    (piece c cs).value = wordLeaf (readWordFrom c cs).value ∧
      (piece c cs).rest = (readWordFrom c cs).rest := by
  rw [piece]
  simp only [dollar, double, single, paren, if_false]
  exact ⟨rfl, rfl⟩

end Script

end FishNav
