import FishNav.Proofs.Script.Readers

/-!
# The grammar of scripts

`Form kind parts` says which parts a node of a kind may have: one rule for each construct of the
language, finished or not. Whatever the text, the readers return parts that spell it out again and
in which every node obeys its rule (`parts_spec`). What a node of a script looks like is read off
the rules from here on, not off the readers.
-/
namespace FishNav

namespace Cst

@[simp] theorem charsOfAll_nil : charsOfAll [] = [] := by rw [charsOfAll]

@[simp] theorem charsOfAll_cons (p : Cst) (ps : List Cst) :
    charsOfAll (p :: ps) = p.chars ++ charsOfAll ps := by rw [charsOfAll]

@[simp] theorem charsOfAll_append (ps qs : List Cst) :
    charsOfAll (ps ++ qs) = charsOfAll ps ++ charsOfAll qs := by
  induction ps with
  | nil => simp
  | cons p ps ih => simp [ih]

@[simp] theorem chars_text (cs : List Char) : (Cst.text cs).chars = cs := by rw [chars]

@[simp] theorem chars_node (kind : Kind) (parts : List Cst) :
    (Cst.node kind parts).chars = charsOfAll parts := by rw [chars]

@[simp] theorem chars_leaf (kind : Kind) (cs : List Char) : (leaf kind cs).chars = cs := by
  simp [leaf]

@[simp] theorem chars_token (cs : List Char) : (token cs).chars = cs := by simp [token]

def HasKind (kinds : List Kind) (p : Cst) : Prop := ∃ kind ∈ kinds, ∃ parts, p = .node kind parts

theorem HasKind.mono {kinds kinds' : List Kind} {p : Cst} (has : p.HasKind kinds)
    (more : kinds ⊆ kinds') : p.HasKind kinds' := by
  obtain ⟨kind, member, inner⟩ := has
  exact ⟨kind, more member, inner⟩

end Cst

namespace Script

open Text

/-! ### Rules -/

/-- Characters that all satisfy `p`. -/
def Run (p : Char → Bool) (cs : List Char) : Prop := ∀ c ∈ cs, p c = true

def Gap (cs : List Char) : Prop := cs ≠ [] ∧ Run isBlank cs

def pieceKinds : List Kind :=
  [.variableExpansion, .doubleQuoteString, .singleQuoteString, .commandSubstitution, .word,
    .integer]

def argumentKinds : List Kind := .concatenation :: pieceKinds

def statementKinds : List Kind :=
  [.comment, .functionDefinition, .forStatement, .whileStatement, .beginStatement, .ifStatement,
    .command]

def clauseKinds : List Kind := [.elseIfClause, .elseClause]

def conditionKinds : List Kind := [.command, .error]

/-- Nodes of some kinds, each behind a text that satisfies `gap`. -/
inductive Items (gap : List Char → Prop) (kinds : List Kind) : List Cst → Prop
  | nil : Items gap kinds []
  | cons {before : List Char} {p : Cst} {more : List Cst} (space : gap before)
      (kind : p.HasKind kinds) (tail : Items gap kinds more) :
      Items gap kinds (.text before :: p :: more)

/-- Arguments; only the first of them may stand without a blank before it. -/
inductive Header : List Cst → Prop
  | nil : Header []
  | cons {before : List Char} {p : Cst} {more : List Cst} (space : Run isBlank before)
      (kind : p.HasKind argumentKinds) (tail : Items Gap argumentKinds more) :
      Header (.text before :: p :: more)

def Body (parts : List Cst) : Prop := Items (Run isSeparator) statementKinds parts

def Condition (parts : List Cst) : Prop :=
  ∃ before p, parts = [.text before, p] ∧ Run isBlank before ∧ p.HasKind conditionKinds

/-- A keyword behind a gap, which may be missing. -/
def Keyword (gap : Char → Bool) (parts : List Cst) : Prop :=
  ∃ before key, parts = [.text before, .token key] ∧ Run gap before

/-- The parts that a node of a kind may have. -/
inductive Form : Kind → List Cst → Prop
  | program {body : List Cst} {rest : List Char} (statements : Body body)
      (final : ∀ c tail, rest.dropWhile isSeparator = c :: tail → c = ')') :
      Form .program (body ++ [.text rest])
  | token (cs : List Char) : Form .anonymous [.text cs]
  | comment (cs : List Char) : Form .comment [.text ('#' :: cs)]
  | word {cs : List Char} (some : cs ≠ []) : Form .word [.text cs]
  | integer {cs : List Char} (some : cs ≠ []) : Form .integer [.text cs]
  | singleQuoteString (cs : List Char) : Form .singleQuoteString [.text ('\'' :: cs)]
  | variableName (cs : List Char) : Form .variableName [.text cs]
  | error (cs : List Char) : Form .error [.text cs]
  | index {inner : List Cst} (kinds : ∀ p ∈ inner, p.HasKind [.word, .integer, .anonymous]) :
      Form .index (.token ['['] :: inner)
  | variableExpansion {name index : List Cst}
      (first : name = [] ∨ ∃ cs ≠ [], Run isNameChar cs ∧ name = [.leaf .variableName cs])
      (kinds : ∀ p ∈ index, p.HasKind [.index]) :
      Form .variableExpansion (.token ['$'] :: (name ++ index))
  | doubleQuoteString {inner : List Cst}
      (kinds : ∀ p ∈ inner, (∃ cs, p = .text cs) ∨ p.HasKind [.variableExpansion, .anonymous]) :
      Form .doubleQuoteString (.token ['"'] :: inner)
  | commandSubstitution {body close : List Cst} {gap : List Char} (statements : Body body)
      (space : Run isSeparator gap) (kinds : ∀ p ∈ close, p = .token [')']) :
      Form .commandSubstitution (.token ['('] :: body ++ .text gap :: close)
  | concatenation {pieces : List Cst} (some : pieces ≠ [])
      (kinds : ∀ p ∈ pieces, p.HasKind pieceKinds) : Form .concatenation pieces
  | command {name : Cst} {more : List Cst} (kind : name.HasKind argumentKinds)
      (tail : Items Gap argumentKinds more) : Form .command (name :: more)
  /-- A command that was read as a condition keeps the empty text before its name. -/
  | condition {name : Cst} {more : List Cst} (kind : name.HasKind argumentKinds)
      (tail : Items Gap argumentKinds more) : Form .command (.text [] :: name :: more)
  | functionDefinition {header body close : List Cst} (arguments : Header header)
      (statements : Body body) (final : Keyword isSeparator close) :
      Form .functionDefinition (.token functionWord :: header ++ (body ++ close))
  | forStatement {name gap : List Char} {link header body close : List Cst}
      (space : Run isBlank gap) (inKeyword : Keyword isBlank link) (arguments : Header header)
      (statements : Body body) (final : Keyword isSeparator close) :
      Form .forStatement
        (.token forWord :: .text gap :: .leaf .variableName name ::
          link ++ header ++ (body ++ close))
  | whileStatement {test body close : List Cst} (condition : Condition test)
      (statements : Body body) (final : Keyword isSeparator close) :
      Form .whileStatement (.token whileWord :: test ++ (body ++ close))
  | beginStatement {body close : List Cst} (statements : Body body)
      (final : Keyword isSeparator close) :
      Form .beginStatement (.token beginWord :: (body ++ close))
  | ifStatement {test body clauses close : List Cst} (condition : Condition test)
      (statements : Body body) (elses : Items (Run isSeparator) clauseKinds clauses)
      (final : Keyword isSeparator close) :
      Form .ifStatement (.token ifWord :: (test ++ body) ++ clauses ++ close)
  | elseIfClause {gap : List Char} {test body : List Cst} (space : Run isBlank gap)
      (condition : Condition test) (statements : Body body) :
      Form .elseIfClause (.token elseWord :: .text gap :: .token ifWord :: (test ++ body))
  | elseClause {body : List Cst} (statements : Body body) :
      Form .elseClause (.token elseWord :: body)

end Script

namespace Cst

mutual

/-- Every node obeys its rule. -/
def Formed : Cst → Prop
  | .text _ => True
  | .node kind parts => Script.Form kind parts ∧ FormedAll parts

def FormedAll : List Cst → Prop
  | [] => True
  | p :: ps => Formed p ∧ FormedAll ps

end

@[simp] theorem formed_text (cs : List Char) : (Cst.text cs).Formed := by rw [Formed]; trivial

@[simp] theorem formed_node {kind : Kind} {parts : List Cst} :
    (Cst.node kind parts).Formed ↔ Script.Form kind parts ∧ FormedAll parts := by rw [Formed]

@[simp] theorem formedAll_iff {ps : List Cst} : FormedAll ps ↔ ∀ p ∈ ps, p.Formed := by
  induction ps with
  | nil => simp [FormedAll]
  | cons p ps ih => simp [FormedAll, ih]

theorem formed_leaf {kind : Kind} {cs : List Char} (rule : Script.Form kind [.text cs]) :
    (leaf kind cs).Formed := by
  simp [leaf, rule]

@[simp] theorem formed_token (cs : List Char) : (token cs).Formed := formed_leaf (.token cs)

end Cst

namespace Script

open Text

/-! ### Readers obey the rules -/

/-- `parts` and then `rest` spell out `text`, and the parts are of a shape and obey their rules. -/
structure Yields (shape : List Cst → Prop) (text : List Char) (parts : List Cst)
    (rest : List Char) : Prop where
  chars : Cst.charsOfAll parts ++ rest = text
  formed : ∀ p ∈ parts, p.Formed
  shape : shape parts

/-- The same of a single node, with the kinds it may have as its shape. -/
structure YieldsNode (kinds : List Kind) (text : List Char) (p : Cst) (rest : List Char) :
    Prop where
  chars : p.chars ++ rest = text
  formed : p.Formed
  kind : p.HasKind kinds

theorem Yields.nothing {shape : List Cst → Prop} (cs : List Char) (empty : shape []) :
    Yields shape cs [] cs := ⟨by simp, by simp, empty⟩

theorem run_takeWhile (p : Char → Bool) (cs : List Char) : Run p (cs.takeWhile p) :=
  fun _ member => of_mem_takeWhile member

theorem Run.separators {cs : List Char} (blanks : Run isBlank cs) : Run isSeparator cs := by
  intro c member
  simp [isSeparator, blanks c member]

/-- A keyword that is missing is an empty token, so the parts spell out the text all the same. -/
theorem keyword_yields (gap : Char → Bool) (key cs : List Char) :
    Yields (Keyword gap) cs (keyword gap key cs).value (keyword gap key cs).rest := by
  by_cases found : ∃ c tail, cs.dropWhile gap = c :: tail ∧ (readWordFrom c tail).value = key
  · obtain ⟨c, tail, next, key'⟩ := found
    obtain ⟨value, rest⟩ := keyword_found next key'
    have word := readWordFrom_append c tail
    rw [key'] at word
    rw [value, rest]
    exact ⟨by simp [word, takeWhile_append_of_dropWhile next], by simp,
      ⟨_, _, rfl, run_takeWhile gap cs⟩⟩
  · have other : ∀ c tail, cs.dropWhile gap = c :: tail → (readWordFrom c tail).value ≠ key :=
      fun c tail next same => found ⟨c, tail, next, same⟩
    obtain ⟨value, rest⟩ := keyword_absent other
    rw [value, rest]
    exact ⟨by simp, by simp, ⟨_, _, rfl, run_takeWhile gap cs⟩⟩

theorem wordLeaf_spec {cs : List Char} (some : cs ≠ []) :
    (wordLeaf cs).Formed ∧ (wordLeaf cs).HasKind [.word, .integer] ∧ (wordLeaf cs).chars = cs := by
  unfold wordLeaf
  split
  · exact ⟨Cst.formed_leaf (.integer some), ⟨_, by simp, _, rfl⟩, by simp⟩
  · exact ⟨Cst.formed_leaf (.word some), ⟨_, by simp, _, rfl⟩, by simp⟩

theorem closing_yields (c : Char) (cs : List Char) :
    Yields (∀ p ∈ ·, p = .token [c]) cs (closing c cs).value (closing c cs).rest := by
  unfold closing
  split
  · split
    · next same =>
      subst same
      exact ⟨by simp, by simp, by simp⟩
    · exact .nothing _ (by simp)
  · exact .nothing _ (by simp)

theorem index_yields (cs : List Char) :
    YieldsNode [.index] ('[' :: cs) (index cs).value (index cs).rest := by
  have close := closing_yields ']' (cs.dropWhile isIndexChar)
  have bracket : ∀ p ∈ (closing ']' (cs.dropWhile isIndexChar)).value,
      p.HasKind [.word, .integer, .anonymous] :=
    fun p member => ⟨.anonymous, by simp, _, close.shape p member⟩
  obtain ⟨value, rest⟩ := index_eq cs
  rw [value, rest]
  by_cases none : cs.takeWhile isIndexChar = []
  · have text : cs.dropWhile isIndexChar = cs := by
      simpa [none] using List.takeWhile_append_dropWhile (p := isIndexChar) (l := cs)
    simp only [none, if_true, List.cons_append, List.nil_append]
    refine ⟨by simp [close.chars, text], ?_, ⟨_, by simp, _, rfl⟩⟩
    simp only [Cst.formed_node, Cst.formedAll_iff, List.mem_cons, forall_eq_or_imp]
    exact ⟨.index bracket, Cst.formed_token _, close.formed⟩
  · obtain ⟨formed, ⟨kind, member, inner⟩, chars⟩ := wordLeaf_spec none
    simp only [none, if_false, List.cons_append, List.nil_append]
    refine ⟨by simp [chars, close.chars], ?_, ⟨_, by simp, _, rfl⟩⟩
    simp only [Cst.formed_node, Cst.formedAll_iff, List.mem_cons, forall_eq_or_imp]
    refine ⟨.index ?_, Cst.formed_token _, formed, close.formed⟩
    simp only [List.mem_cons, forall_eq_or_imp]
    exact ⟨⟨kind, by grind, inner⟩, bracket⟩

theorem expansionName_spec (cs : List Char) :
    Cst.charsOfAll (expansionName cs) = '$' :: cs.takeWhile isNameChar ∧
      (∀ p ∈ expansionName cs, p.Formed) ∧
      ∃ name, expansionName cs = .token ['$'] :: name ∧
        (name = [] ∨ ∃ cs ≠ [], Run isNameChar cs ∧ name = [.leaf .variableName cs]) := by
  unfold expansionName
  split
  · next none => exact ⟨by simp [none], by simp, _, rfl, Or.inl rfl⟩
  · next some =>
    refine ⟨by simp, ?_, _, rfl, Or.inr ⟨_, some, run_takeWhile isNameChar cs, rfl⟩⟩
    simp only [List.mem_cons, List.not_mem_nil, or_false, forall_eq_or_imp, forall_eq]
    exact ⟨Cst.formed_token _, Cst.formed_leaf (.variableName _)⟩

theorem expansion_yields (cs : List Char) :
    YieldsNode [.variableExpansion] ('$' :: cs) (expansion cs).value (expansion cs).rest := by
  obtain ⟨chars, formed, name, front, first⟩ := expansionName_spec cs
  have text : cs.takeWhile isNameChar ++ cs.dropWhile isNameChar = cs :=
    List.takeWhile_append_dropWhile
  by_cases bracket : ∃ tail, cs.dropWhile isNameChar = '[' :: tail
  · obtain ⟨tail, next⟩ := bracket
    have index := index_yields tail
    obtain ⟨value, rest⟩ := expansion_index next
    rw [value, rest]
    refine ⟨?_, ?_, ⟨_, by simp, _, rfl⟩⟩
    · simp [chars, index.chars, ← next, text]
    · simp only [Cst.formed_node, Cst.formedAll_iff, List.mem_append, List.mem_singleton]
      refine ⟨?_, ?_⟩
      · rw [front]
        refine .variableExpansion first fun p member => ?_
        rw [List.mem_singleton.mp member]
        exact index.kind
      · rintro p (before | rfl)
        · exact formed p before
        · exact index.formed
  · obtain ⟨value, rest⟩ := expansion_plain fun tail next => bracket ⟨tail, next⟩
    rw [value, rest]
    refine ⟨by simp [chars, text], ?_, ⟨_, by simp, _, rfl⟩⟩
    simp only [Cst.formed_node, Cst.formedAll_iff]
    refine ⟨?_, formed⟩
    rw [front, ← List.append_nil name]
    exact .variableExpansion first (by simp)

theorem doubleQuoted_yields (cs : List Char) :
    Yields (∀ p ∈ ·, (∃ plain, p = .text plain) ∨ p.HasKind [.variableExpansion, .anonymous]) cs
      (doubleQuoted cs).value (doubleQuoted cs).rest := by
  rcases cs with _ | ⟨c, cs⟩
  · rw [doubleQuoted_end.1, doubleQuoted_end.2]
    exact .nothing _ (by simp)
  by_cases closed : c = '"'
  · subst closed
    rw [(doubleQuoted_close cs).1, (doubleQuoted_close cs).2]
    exact ⟨by simp, by simp, by simpa using Or.inr ⟨.anonymous, by simp, _, rfl⟩⟩
  by_cases dollar : c = '$'
  · subst dollar
    have shorter := (expansion cs).le
    have first := expansion_yields cs
    have more := doubleQuoted_yields (expansion cs).rest
    obtain ⟨value, rest⟩ := doubleQuoted_expansion cs
    rw [value, rest]
    refine ⟨by simp [more.chars, first.chars], ?_, ?_⟩
    · simpa using ⟨first.formed, more.formed⟩
    · obtain ⟨kind, member, inner⟩ := first.kind
      simp only [List.mem_cons, forall_eq_or_imp]
      exact ⟨Or.inr ⟨kind, by grind, inner⟩, more.shape⟩
  by_cases escape : ∃ d ds, c = '\\' ∧ cs = d :: ds
  · obtain ⟨d, ds, rfl, rfl⟩ := escape
    have more := doubleQuoted_yields ds
    obtain ⟨value, rest⟩ := doubleQuoted_escape d ds
    rw [value, rest]
    refine ⟨by simp [more.chars], by simpa using more.formed, ?_⟩
    simp only [List.mem_cons, forall_eq_or_imp]
    exact ⟨Or.inl ⟨_, rfl⟩, more.shape⟩
  · have single : c = '\\' → cs = [] := fun backslash => by
      cases cs with
      | nil => rfl
      | cons d ds => exact absurd ⟨d, ds, backslash, rfl⟩ escape
    have more := doubleQuoted_yields cs
    obtain ⟨value, rest⟩ := doubleQuoted_plain closed dollar single
    rw [value, rest]
    refine ⟨by simp [more.chars], by simpa using more.formed, ?_⟩
    simp only [List.mem_cons, forall_eq_or_imp]
    exact ⟨Or.inl ⟨_, rfl⟩, more.shape⟩
termination_by cs.length

theorem singleQuoted_yields (cs : List Char) :
    YieldsNode [.singleQuoteString] ('\'' :: cs) (singleQuoted cs).value
      (singleQuoted cs).rest := by
  have text : cs.takeWhile (· != '\'') ++ cs.dropWhile (· != '\'') = cs :=
    List.takeWhile_append_dropWhile
  rcases next : cs.dropWhile (· != '\'') with _ | ⟨c, tail⟩
  · obtain ⟨value, rest⟩ := singleQuoted_open next
    rw [next] at text
    rw [value, rest]
    exact ⟨by simpa using text, Cst.formed_leaf (.singleQuoteString _), ⟨_, by simp, _, rfl⟩⟩
  · obtain ⟨value, rest⟩ := singleQuoted_closed next
    rw [next] at text
    rw [value, rest]
    exact ⟨by simpa using text, Cst.formed_leaf (.singleQuoteString _), ⟨_, by simp, _, rfl⟩⟩

theorem missing_yields (cs : List Char) :
    YieldsNode conditionKinds cs (missing cs).value (missing cs).rest := by
  unfold missing
  split
  · exact ⟨by simp, Cst.formed_leaf (.error _), ⟨.error, by simp [conditionKinds], _, rfl⟩⟩
  · exact ⟨by simp, Cst.formed_leaf (.error _), ⟨.error, by simp [conditionKinds], _, rfl⟩⟩

/-! An argument ends where another character than a piece of it stands, so a blank has to come
before the next one. -/

theorem pieces_rest (cs : List Char) :
    ∀ c, (pieces cs).rest.head? = some c → endsArgument c = true := by
  rcases cs with _ | ⟨d, cs⟩
  · simp [(pieces_stop [] (by simp)).2]
  by_cases ends : endsArgument d = true
  · simp [(pieces_stop (d :: cs) (by simpa using ends)).2, ends]
  · have shorter := (piece d cs).le
    rw [(pieces_step cs (Bool.eq_false_iff.mpr ends)).2]
    exact pieces_rest (piece d cs).rest
termination_by cs.length

theorem gap_of_endsArgument {cs tail : List Char} {c : Char}
    (ends : ∀ d, cs.head? = some d → endsArgument d = true)
    (next : cs.dropWhile isBlank = c :: tail) (go : endsLine c = false) :
    Gap (cs.takeWhile isBlank) := by
  refine ⟨fun none => ?_, run_takeWhile isBlank cs⟩
  have text := takeWhile_append_of_dropWhile next
  rw [none, List.nil_append] at text
  have stopped := not_of_dropWhile next
  have ended := ends c (by simp [← text])
  simp [endsArgument, isSeparator, stopped] at ended
  simp [endsLine] at go
  grind

theorem argument_rest (c : Char) (cs : List Char) :
    ∀ d, (argument c cs).rest.head? = some d → endsArgument d = true := by
  rw [(argument_eq c cs).2]
  exact pieces_rest _

/-- Arguments are read, or the line ends. -/
theorem arguments_cases (cs : List Char) :
    (∃ c tail, cs.dropWhile isBlank = c :: tail ∧ endsLine c = false) ∨
      ∀ c tail, cs.dropWhile isBlank = c :: tail → endsLine c = true := by
  rcases next : cs.dropWhile isBlank with _ | ⟨c, tail⟩
  · exact Or.inr (by simp)
  cases ends : endsLine c with
  | true =>
    refine Or.inr fun d more same => ?_
    rw [← (List.cons.inj same).1]
    exact ends
  | false => exact Or.inl ⟨c, tail, rfl, ends⟩

/-- Behind a word that has ended, a blank stands before each argument. -/
theorem arguments_items {cs : List Char}
    (ends : ∀ d, cs.head? = some d → endsArgument d = true)
    (header : Header (arguments cs).value) : Items Gap argumentKinds (arguments cs).value := by
  rcases arguments_cases cs with ⟨c, tail, next, go⟩ | stop
  · have value := (arguments_step next go).1
    rw [value] at header ⊢
    cases header with
    | cons _ kind more => exact .cons (gap_of_endsArgument ends next go) kind more
  · rw [(arguments_stop stop).1]
    exact .nil

/-- Where no blank is in front, the first argument starts a command. -/
theorem arguments_command {cs : List Char} (tight : cs.takeWhile isBlank = [])
    (some : (arguments cs).value ≠ []) (header : Header (arguments cs).value) :
    Form .command (arguments cs).value := by
  rcases arguments_cases cs with ⟨c, tail, next, go⟩ | stop
  · have value := (arguments_step next go).1
    rw [tight] at value
    rw [value] at header ⊢
    cases header with
    | cons _ kind more => exact .condition kind more
  · exact absurd (arguments_stop stop).1 some

theorem takeWhile_dropWhile (p : Char → Bool) (cs : List Char) :
    (cs.dropWhile p).takeWhile p = [] := by
  rcases next : cs.dropWhile p with _ | ⟨c, tail⟩
  · rfl
  · simp [not_of_dropWhile next]

/-- Statements are read up to the end, a closing parenthesis or one of the words that stop them. -/
theorem statements_rest (stops : List (List Char)) (cs : List Char) :
    ∀ c tail, (statements stops cs).rest.dropWhile isSeparator = c :: tail →
      c = ')' ∨ (readWordFrom c tail).value ∈ stops := by
  rcases next : cs.dropWhile isSeparator with _ | ⟨c, tail⟩
  · simp [(statements_end next).2, next]
  have shorter := length_lt_of_dropWhile next
  by_cases close : c = ')'
  · subst close
    simp [(statements_close next).2, next]
  by_cases hash : c = '#'
  · subst hash
    have shorter' := length_dropWhile_le (· != '\n') tail
    rw [(statements_comment stops next).2]
    exact statements_rest stops (tail.dropWhile (· != '\n'))
  cases go : stops.contains (readWordFrom c tail).value with
  | true =>
    rw [(statements_stop next close hash go).2, next]
    rintro _ _ same
    obtain ⟨rfl, rfl⟩ := List.cons.inj same
    exact Or.inr (by simpa using go)
  | false =>
    have shorter' := (statement c tail).le
    rw [(statements_step next close hash go).2]
    exact statements_rest stops (statement c tail).rest
termination_by cs.length

mutual

/-- All readers obey the rules and lose no character, by induction on what they read. -/
theorem statements_yields (stops : List (List Char)) (cs : List Char) :
    Yields Body cs (statements stops cs).value (statements stops cs).rest := by
  rcases statements_cases stops cs with
    ⟨value, rest⟩ | ⟨tail, next⟩ | ⟨c, tail, next, close, hash, go⟩
  · rw [value, rest]
    exact .nothing cs .nil
  · have shorter := length_lt_of_dropWhile next
    have shorter' := length_dropWhile_le (· != '\n') tail
    have text := takeWhile_append_of_dropWhile next
    have more := statements_yields stops (tail.dropWhile (· != '\n'))
    obtain ⟨value, rest⟩ := statements_comment stops next
    rw [value, rest]
    refine ⟨by simp [more.chars, text], ?_, ?_⟩
    · simpa using ⟨Cst.formed_leaf (.comment _), more.formed⟩
    · exact .cons (run_takeWhile _ cs) ⟨.comment, by simp [statementKinds], _, rfl⟩ more.shape
  · have shorter := length_lt_of_dropWhile next
    have shorter' := (statement c tail).le
    have text := takeWhile_append_of_dropWhile next
    have first := statement_yields c tail
    have more := statements_yields stops (statement c tail).rest
    obtain ⟨value, rest⟩ := statements_step next close hash go
    rw [value, rest]
    refine ⟨by simp [more.chars, first.chars, text], ?_, ?_⟩
    · simpa using ⟨first.formed, more.formed⟩
    · exact .cons (run_takeWhile _ cs) first.kind more.shape
termination_by 4 * cs.length + 3

theorem block_yields (cs : List Char) :
    Yields (fun parts => ∃ body close, parts = body ++ close ∧ Body body ∧
      Keyword isSeparator close) cs (block cs).value (block cs).rest := by
  have body := statements_yields [endWord] cs
  have close := keyword_yields isSeparator endWord (statements [endWord] cs).rest
  obtain ⟨value, rest⟩ := block_eq cs
  rw [value, rest]
  refine ⟨by simp [close.chars, body.chars], ?_, ⟨_, _, rfl, body.shape, close.shape⟩⟩
  simpa [or_imp, forall_and] using ⟨body.formed, close.formed⟩
termination_by 4 * cs.length + 4

theorem statement_yields (c : Char) (cs : List Char) :
    YieldsNode statementKinds (c :: cs) (statement c cs).value (statement c cs).rest := by
  have word := readWordFrom_append c cs
  have shorter := (readWordFrom c cs).le
  by_cases function : (readWordFrom c cs).value = functionWord
  · have shorter' := (arguments (readWordFrom c cs).rest).le
    have header := arguments_yields (readWordFrom c cs).rest
    have block := block_yields (arguments (readWordFrom c cs).rest).rest
    obtain ⟨body, close, split, statements, final⟩ := block.shape
    obtain ⟨value, rest⟩ := statement_function function
    rw [function] at word
    rw [value, rest]
    refine ⟨by simp [block.chars, header.chars, word], ?_, ⟨_, by simp [statementKinds], _, rfl⟩⟩
    refine Cst.formed_node.mpr ⟨?_, ?_⟩
    · rw [split]
      exact .functionDefinition header.shape statements final
    · simpa [or_imp, forall_and] using ⟨header.formed, block.formed⟩
  by_cases loop : (readWordFrom c cs).value = forWord
  · obtain ⟨value, rest⟩ := statement_for loop
    rw [loop] at word
    generalize (readWordFrom c cs).rest = start at value rest word shorter
    have blanks : start.takeWhile isBlank ++ start.dropWhile isBlank = start :=
      List.takeWhile_append_dropWhile
    have shorter₁ := length_dropWhile_le isBlank start
    have name := word_append (start.dropWhile isBlank)
    have shorter₂ := length_word_le (start.dropWhile isBlank)
    simp only [skip, readWord] at value rest
    generalize Script.word (start.dropWhile isBlank) = found at value rest name shorter₂
    have link := keyword_yields isBlank inWord found.2
    have shorter₃ := (keyword isBlank inWord found.2).le
    generalize keyword isBlank inWord found.2 = key at value rest link shorter₃
    have header := arguments_yields key.rest
    have shorter₄ := (arguments key.rest).le
    have block := block_yields (arguments key.rest).rest
    obtain ⟨body, close, split, statements, final⟩ := block.shape
    rw [value, rest]
    refine ⟨by simp [block.chars, header.chars, link.chars, name, blanks, word], ?_,
      ⟨_, by simp [statementKinds], _, rfl⟩⟩
    refine Cst.formed_node.mpr ⟨?_, ?_⟩
    · rw [split]
      exact .forStatement (run_takeWhile _ _) link.shape header.shape statements final
    · simpa [or_imp, forall_and] using
        ⟨Cst.formed_leaf (.variableName _), link.formed, header.formed, block.formed⟩
  by_cases loop : (readWordFrom c cs).value = whileWord
  · have shorter' := (condition (readWordFrom c cs).rest).le
    have test := condition_yields (readWordFrom c cs).rest
    have block := block_yields (condition (readWordFrom c cs).rest).rest
    obtain ⟨body, close, split, statements, final⟩ := block.shape
    obtain ⟨value, rest⟩ := statement_while loop
    rw [loop] at word
    rw [value, rest]
    refine ⟨by simp [block.chars, test.chars, word], ?_, ⟨_, by simp [statementKinds], _, rfl⟩⟩
    refine Cst.formed_node.mpr ⟨?_, ?_⟩
    · rw [split]
      exact .whileStatement test.shape statements final
    · simpa [or_imp, forall_and] using ⟨test.formed, block.formed⟩
  by_cases begins : (readWordFrom c cs).value = beginWord
  · have block := block_yields (readWordFrom c cs).rest
    obtain ⟨body, close, split, statements, final⟩ := block.shape
    obtain ⟨value, rest⟩ := statement_begin begins
    rw [begins] at word
    rw [value, rest]
    refine ⟨by simp [block.chars, word], ?_, ⟨_, by simp [statementKinds], _, rfl⟩⟩
    refine Cst.formed_node.mpr ⟨?_, ?_⟩
    · rw [split]
      exact .beginStatement statements final
    · simpa using block.formed
  by_cases conditional : (readWordFrom c cs).value = ifWord
  · have shorter₁ := (branch (readWordFrom c cs).rest).le
    have shorter₂ := (elseClauses (branch (readWordFrom c cs).rest).rest).le
    have first := branch_yields (readWordFrom c cs).rest
    have clauses := elseClauses_yields (branch (readWordFrom c cs).rest).rest
    have close := keyword_yields isSeparator endWord
      (elseClauses (branch (readWordFrom c cs).rest).rest).rest
    obtain ⟨test, body, split, condition, statements⟩ := first.shape
    obtain ⟨value, rest⟩ := statement_if conditional
    rw [conditional] at word
    rw [value, rest]
    refine ⟨by simp [close.chars, clauses.chars, first.chars, word], ?_,
      ⟨_, by simp [statementKinds], _, rfl⟩⟩
    refine Cst.formed_node.mpr ⟨?_, ?_⟩
    · rw [split]
      exact .ifStatement condition statements clauses.shape close.shape
    · simpa [or_imp, forall_and] using ⟨first.formed, clauses.formed, close.formed⟩
  have other : (readWordFrom c cs).value ∉ openers := by
    simp [openers, *]
  have shorter' := (argument c cs).le
  have first := argument_yields c cs
  have more := arguments_yields (argument c cs).rest
  obtain ⟨value, rest⟩ := statement_command other
  rw [value, rest]
  refine ⟨by simp [more.chars, first.chars], ?_, ⟨_, by simp [statementKinds], _, rfl⟩⟩
  refine Cst.formed_node.mpr ⟨.command first.kind ?_, ?_⟩
  · exact arguments_items (argument_rest c cs) more.shape
  · simpa using ⟨first.formed, more.formed⟩
termination_by 4 * cs.length + 6

theorem branch_yields (cs : List Char) :
    Yields (fun parts => ∃ test body, parts = test ++ body ∧ Condition test ∧ Body body) cs
      (branch cs).value (branch cs).rest := by
  have shorter := (condition cs).le
  have test := condition_yields cs
  have body := statements_yields [endWord, elseWord] (condition cs).rest
  obtain ⟨value, rest⟩ := branch_eq cs
  rw [value, rest]
  refine ⟨by simp [body.chars, test.chars], ?_, ⟨_, _, rfl, test.shape, body.shape⟩⟩
  simpa [or_imp, forall_and] using ⟨test.formed, body.formed⟩
termination_by 4 * cs.length + 4

theorem elseClauses_yields (cs : List Char) :
    Yields (Items (Run isSeparator) clauseKinds) cs (elseClauses cs).value
      (elseClauses cs).rest := by
  by_cases found : ∃ c tail, cs.dropWhile isSeparator = c :: tail ∧
      (readWordFrom c tail).value = elseWord
  · obtain ⟨c, tail, next, key⟩ := found
    have shorter := length_lt_of_dropWhile next
    have shorter₁ := (readWordFrom c tail).le
    have shorter₂ := (elseClause (readWordFrom c tail).rest).le
    have word := readWordFrom_append c tail
    have clause := elseClause_yields (readWordFrom c tail).rest
    have more := elseClauses_yields (elseClause (readWordFrom c tail).rest).rest
    obtain ⟨value, rest⟩ := elseClauses_step next key
    rw [key] at word
    rw [value, rest]
    refine ⟨?_, by simpa using ⟨clause.formed, more.formed⟩,
      .cons (run_takeWhile _ cs) clause.kind more.shape⟩
    simp [more.chars, clause.chars, word, takeWhile_append_of_dropWhile next]
  · have other : ∀ c tail, cs.dropWhile isSeparator = c :: tail →
        (readWordFrom c tail).value ≠ elseWord :=
      fun c tail next same => found ⟨c, tail, next, same⟩
    rw [(elseClauses_stop other).1, (elseClauses_stop other).2]
    exact .nothing cs .nil
termination_by 4 * cs.length + 3

theorem elseClause_yields (cs : List Char) :
    YieldsNode clauseKinds (elseWord ++ cs) (elseClause cs).value (elseClause cs).rest := by
  by_cases key : (word (cs.dropWhile isBlank)).1 = ifWord
  · have shorter := length_dropWhile_le isBlank cs
    have shorter' := length_word_le (cs.dropWhile isBlank)
    have text : cs.takeWhile isBlank ++ cs.dropWhile isBlank = cs :=
      List.takeWhile_append_dropWhile
    have word' := word_append (cs.dropWhile isBlank)
    have first := branch_yields (word (cs.dropWhile isBlank)).2
    obtain ⟨test, body, split, condition, statements⟩ := first.shape
    obtain ⟨value, rest⟩ := elseClause_if key
    rw [key] at word'
    rw [value, rest]
    refine ⟨by simp [first.chars, word', text], ?_, ⟨_, by simp [clauseKinds], _, rfl⟩⟩
    refine Cst.formed_node.mpr ⟨?_, by simpa using first.formed⟩
    rw [split]
    exact .elseIfClause (run_takeWhile _ cs) condition statements
  · have body := statements_yields [endWord] cs
    obtain ⟨value, rest⟩ := elseClause_plain key
    rw [value, rest]
    refine ⟨by simp [body.chars], ?_, ⟨_, by simp [clauseKinds], _, rfl⟩⟩
    exact Cst.formed_node.mpr ⟨.elseClause body.shape, by simpa using body.formed⟩
termination_by 4 * cs.length + 5

theorem condition_yields (cs : List Char) :
    Yields Condition cs (condition cs).value (condition cs).rest := by
  have shorter := length_dropWhile_le isBlank cs
  have text : cs.takeWhile isBlank ++ cs.dropWhile isBlank = cs :=
    List.takeWhile_append_dropWhile
  by_cases none : (arguments (cs.dropWhile isBlank)).value = []
  · have found := missing_yields (cs.dropWhile isBlank)
    obtain ⟨value, rest⟩ := condition_missing none
    rw [value, rest]
    exact ⟨by simp [found.chars, text], by simpa using found.formed,
      ⟨_, _, rfl, run_takeWhile _ cs, found.kind⟩⟩
  · have parts := arguments_yields (cs.dropWhile isBlank)
    obtain ⟨value, rest⟩ := condition_command none
    rw [value, rest]
    refine ⟨by simp [parts.chars, text], ?_,
      ⟨_, _, rfl, run_takeWhile _ cs, ⟨_, by simp [conditionKinds], _, rfl⟩⟩⟩
    have command := arguments_command (takeWhile_dropWhile isBlank cs) none parts.shape
    simpa using ⟨command, parts.formed⟩
termination_by 4 * cs.length + 3

theorem arguments_yields (cs : List Char) :
    Yields Header cs (arguments cs).value (arguments cs).rest := by
  rcases arguments_cases cs with ⟨c, tail, next, go⟩ | stop
  · have shorter := length_lt_of_dropWhile next
    have shorter' := (argument c tail).le
    have first := argument_yields c tail
    have more := arguments_yields (argument c tail).rest
    obtain ⟨value, rest⟩ := arguments_step next go
    rw [value, rest]
    refine ⟨by simp [more.chars, first.chars, takeWhile_append_of_dropWhile next],
      by simpa using ⟨first.formed, more.formed⟩, .cons (run_takeWhile _ cs) first.kind ?_⟩
    exact arguments_items (argument_rest c tail) more.shape
  · rw [(arguments_stop stop).1, (arguments_stop stop).2]
    exact .nothing cs .nil
termination_by 4 * cs.length + 2

theorem argument_yields (c : Char) (cs : List Char) :
    YieldsNode argumentKinds (c :: cs) (argument c cs).value (argument c cs).rest := by
  have shorter := (piece c cs).le
  have first := piece_yields c cs
  have more := pieces_yields (piece c cs).rest
  obtain ⟨value, rest⟩ := argument_eq c cs
  rw [value, rest]
  rcases parts : (pieces (piece c cs).rest).value with _ | ⟨p, ps⟩
  · have chars := more.chars
    rw [parts, Cst.charsOfAll_nil, List.nil_append] at chars
    obtain ⟨kind, member, inner⟩ := first.kind
    rw [chars]
    exact ⟨first.chars, first.formed, ⟨kind, List.mem_cons_of_mem _ member, inner⟩⟩
  · have several : argumentOf ((piece c cs).value :: p :: ps) =
        .node .concatenation ((piece c cs).value :: p :: ps) := rfl
    rw [several, ← parts]
    refine ⟨by simp [more.chars, first.chars], ?_, ⟨_, by simp [argumentKinds], _, rfl⟩⟩
    refine Cst.formed_node.mpr ⟨.concatenation (by simp) ?_, ?_⟩
    · simpa using ⟨first.kind, more.shape⟩
    · simpa using ⟨first.formed, more.formed⟩
termination_by 4 * cs.length + 5

theorem pieces_yields (cs : List Char) :
    Yields (∀ p ∈ ·, p.HasKind pieceKinds) cs (pieces cs).value (pieces cs).rest := by
  rcases cs with _ | ⟨c, cs⟩
  · rw [(pieces_stop [] (by simp)).1, (pieces_stop [] (by simp)).2]
    exact .nothing _ (by simp)
  cases ends : endsArgument c with
  | true =>
    have stop : ∀ d, (c :: cs).head? = some d → endsArgument d = true := by simpa using ends
    rw [(pieces_stop _ stop).1, (pieces_stop _ stop).2]
    exact .nothing _ (by simp)
  | false =>
    have shorter := (piece c cs).le
    have first := piece_yields c cs
    have more := pieces_yields (piece c cs).rest
    obtain ⟨value, rest⟩ := pieces_step cs ends
    rw [value, rest]
    exact ⟨by simp [more.chars, first.chars], by simpa using ⟨first.formed, more.formed⟩,
      by simpa using ⟨first.kind, more.shape⟩⟩
termination_by 4 * cs.length + 1

theorem piece_yields (c : Char) (cs : List Char) :
    YieldsNode pieceKinds (c :: cs) (piece c cs).value (piece c cs).rest := by
  by_cases dollar : c = '$'
  · subst dollar
    have read := expansion_yields cs
    rw [piece_expansion]
    exact ⟨read.chars, read.formed, read.kind.mono (by simp [pieceKinds])⟩
  by_cases double : c = '"'
  · subst double
    have body := doubleQuoted_yields cs
    obtain ⟨value, rest⟩ := piece_double cs
    rw [value, rest]
    refine ⟨by simp [body.chars], ?_, ⟨_, by simp [pieceKinds], _, rfl⟩⟩
    exact Cst.formed_node.mpr ⟨.doubleQuoteString body.shape, by simpa using body.formed⟩
  by_cases single : c = '\''
  · subst single
    have read := singleQuoted_yields cs
    rw [piece_single]
    exact ⟨read.chars, read.formed, read.kind.mono (by simp [pieceKinds])⟩
  by_cases paren : c = '('
  · subst paren
    have body := statements_yields [] cs
    have gap : (statements [] cs).rest.takeWhile isSeparator ++
        (statements [] cs).rest.dropWhile isSeparator = (statements [] cs).rest :=
      List.takeWhile_append_dropWhile
    have close := closing_yields ')' ((statements [] cs).rest.dropWhile isSeparator)
    obtain ⟨value, rest⟩ := piece_substitution cs
    rw [value, rest]
    refine ⟨by simp [skip, close.chars, gap, body.chars], ?_, ⟨_, by simp [pieceKinds], _, rfl⟩⟩
    refine Cst.formed_node.mpr
      ⟨.commandSubstitution body.shape (run_takeWhile _ _) close.shape, ?_⟩
    simpa [or_imp, forall_and] using ⟨body.formed, close.formed⟩
  · obtain ⟨value, rest⟩ := piece_word cs dollar double single paren
    obtain ⟨formed, kind, chars⟩ := wordLeaf_spec (readWordFrom_ne_nil c cs)
    rw [value, rest]
    exact ⟨by rw [chars, readWordFrom_append], formed, kind.mono (by simp [pieceKinds])⟩
termination_by 4 * cs.length + 4

end

/-- The parts of a script spell it out, and as the parts of a program they obey the rules. -/
theorem parts_spec (cs : List Char) :
    Cst.charsOfAll (parts cs) = cs ∧ (Cst.node .program (parts cs)).Formed := by
  have body := statements_yields [] cs
  have final : ∀ c tail, (statements [] cs).rest.dropWhile isSeparator = c :: tail → c = ')' := by
    intro c tail next
    simpa using statements_rest [] cs c tail next
  refine ⟨by simp [parts, body.chars], Cst.formed_node.mpr ⟨.program body.shape final, ?_⟩⟩
  simpa [parts, or_imp, forall_and] using body.formed

end Script

end FishNav
