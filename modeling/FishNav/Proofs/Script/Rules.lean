import FishNav.Proofs.Script.Grammar

/-!
# What the rules have in common

Facts that hold of all the rules of the grammar, or of all but a few: where plain text may stand
(`Form.separators`), how a node starts (`Form.opening`) and of which kinds its children are
(`Form.kindsIn`).
-/
namespace FishNav

namespace Cst

/-- Plain text is no node. -/
def isNode : Cst → Bool
  | .text _ => false
  | .node _ _ => true

end Cst

namespace Script

open Text Cst

/-! ### Plain text in the rules -/

/-- All plain text among the parts is separators. -/
def Spacing (parts : List Cst) : Prop := ∀ cs, .text cs ∈ parts → Run isSeparator cs

theorem isNode_of_hasKind {p : Cst} {kinds : List Kind} (has : p.HasKind kinds) :
    p.isNode = true := by
  obtain ⟨kind, -, parts, rfl⟩ := has
  rfl

@[simp] theorem spacing_nil : Spacing [] := by simp [Spacing]

@[simp] theorem spacing_append {ps qs : List Cst} :
    Spacing (ps ++ qs) ↔ Spacing ps ∧ Spacing qs := by
  simp only [Spacing, List.mem_append, or_imp, forall_and]

@[simp] theorem spacing_text {cs : List Char} {ps : List Cst} :
    Spacing (.text cs :: ps) ↔ Run isSeparator cs ∧ Spacing ps := by
  simp [Spacing, or_imp, forall_and]

theorem spacing_node {p : Cst} {ps : List Cst} (node : p.isNode = true) :
    Spacing (p :: ps) ↔ Spacing ps := by
  cases p with
  | text cs => simp [isNode] at node
  | node kind parts => simp [Spacing]

@[simp] theorem spacing_leaf {kind : Kind} {cs : List Char} {ps : List Cst} :
    Spacing (.leaf kind cs :: ps) ↔ Spacing ps := spacing_node rfl

@[simp] theorem spacing_token {cs : List Char} {ps : List Cst} :
    Spacing (.token cs :: ps) ↔ Spacing ps := spacing_node rfl

theorem spacing_of_nodes {ps : List Cst} (nodes : ∀ p ∈ ps, p.isNode = true) : Spacing ps := by
  intro cs member
  have node := nodes _ member
  simp [isNode] at node

theorem Items.spacing {gap : List Char → Prop} {kinds : List Kind} {parts : List Cst}
    (items : Items gap kinds parts) (separators : ∀ cs, gap cs → Run isSeparator cs) :
    Spacing parts := by
  induction items with
  | nil => exact spacing_nil
  | cons space kind _ ih =>
    exact spacing_text.mpr ⟨separators _ space, (spacing_node (isNode_of_hasKind kind)).mpr ih⟩

theorem Header.spacing {parts : List Cst} (header : Header parts) : Spacing parts := by
  cases header with
  | nil => exact spacing_nil
  | cons space kind tail =>
    exact spacing_text.mpr ⟨space.separators,
      (spacing_node (isNode_of_hasKind kind)).mpr (tail.spacing fun _ gap => gap.2.separators)⟩

theorem Body.spacing {parts : List Cst} (body : Body parts) : Spacing parts :=
  Items.spacing body fun _ run => run

theorem Condition.spacing {parts : List Cst} (test : Condition parts) : Spacing parts := by
  obtain ⟨before, p, rfl, space, kind⟩ := test
  exact spacing_text.mpr ⟨space.separators, (spacing_node (isNode_of_hasKind kind)).mpr spacing_nil⟩

theorem Keyword.spacing {gap : Char → Bool} {parts : List Cst} (key : Keyword gap parts)
    (separators : ∀ cs, Run gap cs → Run isSeparator cs) : Spacing parts := by
  obtain ⟨before, word, rfl, space⟩ := key
  exact spacing_text.mpr ⟨separators _ space, (spacing_node rfl).mpr spacing_nil⟩

/-- A rule for a node with children, strings and the program apart, has only separators as plain
text. -/
theorem Form.separators {kind : Kind} {parts : List Cst} (rule : Form kind parts)
    (program : kind ≠ .program) (string : kind ≠ .doubleQuoteString)
    (some : ∃ p ∈ parts, p.isNode = true) : Spacing parts := by
  have keep : ∀ cs, Run isSeparator cs → Run isSeparator cs := fun _ run => run
  have gap : ∀ cs, Gap cs → Run isSeparator cs := fun _ gap => gap.2.separators
  have blank : ∀ cs, Run isBlank cs → Run isSeparator cs := fun _ run => run.separators
  cases rule with
  | program | doubleQuoteString => contradiction
  | token | comment | word | integer | singleQuoteString | variableName | error =>
    simp [isNode] at some
  | index kinds =>
    rw [spacing_token]
    exact spacing_of_nodes fun p member => isNode_of_hasKind (kinds p member)
  | concatenation _ kinds =>
    exact spacing_of_nodes fun p member => isNode_of_hasKind (kinds p member)
  | variableExpansion first kinds =>
    have index := spacing_of_nodes fun p member => isNode_of_hasKind (kinds p member)
    rcases first with rfl | ⟨name, -, -, rfl⟩ <;> simp [index]
  | commandSubstitution statements space kinds =>
    have close := spacing_of_nodes fun p member => by rw [kinds p member]; rfl
    simp [statements.spacing, space, close]
  | command kind tail => exact (spacing_node (isNode_of_hasKind kind)).mpr (tail.spacing gap)
  | condition kind tail =>
    exact spacing_text.mpr ⟨by simp [Run],
      (spacing_node (isNode_of_hasKind kind)).mpr (tail.spacing gap)⟩
  | functionDefinition arguments statements final =>
    simp [arguments.spacing, statements.spacing, final.spacing keep]
  | forStatement space inKeyword arguments statements final =>
    simp [space.separators, inKeyword.spacing blank, arguments.spacing, statements.spacing,
      final.spacing keep]
  | whileStatement condition statements final =>
    simp [condition.spacing, statements.spacing, final.spacing keep]
  | beginStatement statements final => simp [statements.spacing, final.spacing keep]
  | ifStatement condition statements elses final =>
    simp [condition.spacing, statements.spacing, elses.spacing keep, final.spacing keep]
  | elseIfClause space condition statements =>
    simp [space.separators, condition.spacing, statements.spacing]
  | elseClause statements => simp [statements.spacing]

/-- A node other than the program has no children or starts with the first of them. -/
theorem Form.opening {kind : Kind} {parts : List Cst} (rule : Form kind parts)
    (program : kind ≠ .program) :
    (∃ cs, parts = [.text cs]) ∨ (∃ p more, parts = p :: more ∧ p.isNode = true) ∨
      ∃ p more, parts = .text [] :: p :: more ∧ p.isNode = true := by
  cases rule with
  | program => contradiction
  | token | comment | word | integer | singleQuoteString | variableName | error =>
    exact Or.inl ⟨_, rfl⟩
  | concatenation some kinds =>
    obtain ⟨p, more, rfl⟩ := List.exists_cons_of_ne_nil some
    exact Or.inr (Or.inl ⟨p, more, rfl, isNode_of_hasKind (kinds p List.mem_cons_self)⟩)
  | command kind => exact Or.inr (Or.inl ⟨_, _, rfl, isNode_of_hasKind kind⟩)
  | condition kind => exact Or.inr (Or.inr ⟨_, _, rfl, isNode_of_hasKind kind⟩)
  | index | variableExpansion | doubleQuoteString | commandSubstitution | functionDefinition
  | forStatement | whileStatement | beginStatement | ifStatement | elseIfClause | elseClause =>
    exact Or.inr (Or.inl ⟨_, _, rfl, rfl⟩)

/-- A node starts with its first child, except for the program. -/
theorem Form.opening_chars {kind kind' : Kind} {before inner after : List Cst}
    (rule : Form kind (before ++ .node kind' inner :: after)) (program : kind ≠ .program)
    (first : before.countP isNode = 0) : charsOfAll before = [] := by
  have plain : ∀ p ∈ before, p.isNode ≠ true := List.countP_eq_zero.mp first
  rcases rule.opening program with ⟨cs, split⟩ | ⟨p, more, split, node⟩ | ⟨p, more, split, node⟩
  · cases before with
    | nil => rfl
    | cons q before => simp at split
  · cases before with
    | nil => rfl
    | cons q before =>
      obtain ⟨rfl, -⟩ := List.cons.inj split
      exact absurd node (plain q List.mem_cons_self)
  · match before, split with
    | [], _ => rfl
    | [q], split =>
      obtain ⟨rfl, -⟩ := List.cons.inj split
      simp
    | q :: r :: before, split =>
      obtain ⟨-, split⟩ := List.cons.inj split
      obtain ⟨rfl, -⟩ := List.cons.inj split
      exact absurd node (plain r (by simp))

/-- The statements of a program around one of them. -/
theorem Form.program_split {kind' : Kind} {before inner after : List Cst}
    (rule : Form .program (before ++ .node kind' inner :: after)) :
    ∃ more rest, after = more ++ [.text rest] ∧ Body (before ++ .node kind' inner :: more) ∧
      ∀ c tail, rest.dropWhile isSeparator = c :: tail → c = ')' := by
  generalize whole : before ++ .node kind' inner :: after = parts at rule
  cases rule with
  | @program body rest statements final =>
    rcases List.append_eq_append_iff.mp whole with ⟨more, rfl, split⟩ | ⟨more, -, split⟩
    · cases more with
      | nil => simp at split
      | cons q more =>
        rw [List.cons_append] at split
        obtain ⟨rfl, rfl⟩ := List.cons.inj split
        exact ⟨more, rest, rfl, statements, final⟩
    · cases more with
      | nil => simp at split
      | cons q more => simp at split

/-- Strings apart, what stands before a child is separators and nodes. -/
theorem Form.spacing_before {kind kind' : Kind} {before inner after : List Cst}
    (rule : Form kind (before ++ .node kind' inner :: after))
    (string : kind ≠ .doubleQuoteString) : Spacing before := by
  by_cases program : kind = .program
  · subst program
    obtain ⟨more, rest, rfl, statements, -⟩ := rule.program_split
    exact (spacing_append.mp statements.spacing).1
  · have spacing := rule.separators program string ⟨.node kind' inner, by simp, rfl⟩
    exact (spacing_append.mp spacing).1

/-- Only separators stand behind a child, except in strings and in the program. -/
theorem Form.spacing_after {kind kind' : Kind} {before inner after : List Cst}
    (rule : Form kind (before ++ .node kind' inner :: after)) (program : kind ≠ .program)
    (string : kind ≠ .doubleQuoteString) : Spacing after := by
  have spacing := rule.separators program string ⟨.node kind' inner, by simp, rfl⟩
  exact (spacing_node rfl).mp (spacing_append.mp spacing).2

theorem run_charsOfAll {ps : List Cst} (spacing : Spacing ps) (plain : ps.countP isNode = 0) :
    Run isSeparator (charsOfAll ps) := by
  induction ps with
  | nil => simp [Run]
  | cons p ps ih =>
    cases p with
    | text cs =>
      rw [spacing_text] at spacing
      have rest := ih spacing.2 (by simpa [isNode] using plain)
      intro c member
      rw [charsOfAll_cons, chars_text, List.mem_append] at member
      exact member.elim (spacing.1 c) (rest c)
    | node kind parts => rw [List.countP_cons_of_pos rfl] at plain; omega

/-- Behind the last statement of a program stand separators, and then the end of the text or a
closing parenthesis. -/
theorem Form.program_after {kind' : Kind} {before inner after : List Cst}
    (rule : Form .program (before ++ .node kind' inner :: after))
    (last : after.countP isNode = 0) :
    ∃ gap rest, charsOfAll after = gap ++ rest ∧ Run isSeparator gap ∧
      ∀ c tail, rest = c :: tail → c = ')' := by
  obtain ⟨more, rest, rfl, statements, final⟩ := rule.program_split
  rw [List.countP_append] at last
  have spacing := (spacing_node rfl).mp (spacing_append.mp statements.spacing).2
  have run := run_charsOfAll spacing (by omega)
  refine ⟨charsOfAll more ++ rest.takeWhile isSeparator, rest.dropWhile isSeparator, by simp, ?_,
    final⟩
  intro c member
  rw [List.mem_append] at member
  exact member.elim (run c) of_mem_takeWhile

/-! ### Kinds of children -/

/-- The kinds of the children that a node of a kind may have. -/
def childKinds : Kind → List Kind
  | .program => statementKinds
  | .index => [.word, .integer, .anonymous]
  | .variableExpansion => [.anonymous, .variableName, .index]
  | .doubleQuoteString => [.anonymous, .variableExpansion]
  | .commandSubstitution | .beginStatement | .elseClause => .anonymous :: statementKinds
  | .concatenation => pieceKinds
  | .command => argumentKinds
  | .functionDefinition => .anonymous :: argumentKinds ++ statementKinds
  | .forStatement => .anonymous :: .variableName :: argumentKinds ++ statementKinds
  | .whileStatement | .elseIfClause => .anonymous :: conditionKinds ++ statementKinds
  | .ifStatement => .anonymous :: conditionKinds ++ statementKinds ++ clauseKinds
  | _ => []

/-- Every node among the parts is of one of these kinds. -/
def KindsIn (kinds : List Kind) (parts : List Cst) : Prop :=
  ∀ kind inner, .node kind inner ∈ parts → kind ∈ kinds

@[simp] theorem kindsIn_nil {kinds : List Kind} : KindsIn kinds [] := by simp [KindsIn]

@[simp] theorem kindsIn_append {kinds : List Kind} {ps qs : List Cst} :
    KindsIn kinds (ps ++ qs) ↔ KindsIn kinds ps ∧ KindsIn kinds qs := by
  simp only [KindsIn, List.mem_append, or_imp, forall_and]

@[simp] theorem kindsIn_text {kinds : List Kind} {cs : List Char} {ps : List Cst} :
    KindsIn kinds (.text cs :: ps) ↔ KindsIn kinds ps := by
  simp [KindsIn]

@[simp] theorem kindsIn_leaf {kinds : List Kind} {kind : Kind} {cs : List Char} {ps : List Cst} :
    KindsIn kinds (.leaf kind cs :: ps) ↔ kind ∈ kinds ∧ KindsIn kinds ps := by
  simp [KindsIn, leaf, or_imp, forall_and]

@[simp] theorem kindsIn_token {kinds : List Kind} {cs : List Char} {ps : List Cst} :
    KindsIn kinds (.token cs :: ps) ↔ .anonymous ∈ kinds ∧ KindsIn kinds ps := kindsIn_leaf

theorem kindsIn_cons {kinds : List Kind} {p : Cst} {ps : List Cst} (has : p.HasKind kinds)
    (rest : KindsIn kinds ps) : KindsIn kinds (p :: ps) := by
  obtain ⟨kind, member, inner, rfl⟩ := has
  intro kind' inner' member'
  rcases List.mem_cons.mp member' with same | member'
  · cases same
    exact member
  · exact rest kind' inner' member'

theorem kindsIn_of_hasKind {kinds : List Kind} {ps : List Cst}
    (has : ∀ p ∈ ps, p.HasKind kinds) : KindsIn kinds ps := by
  intro kind inner member
  obtain ⟨kind', member', inner', same⟩ := has _ member
  cases same
  exact member'

theorem KindsIn.mono {kinds kinds' : List Kind} {ps : List Cst} (has : KindsIn kinds ps)
    (more : kinds ⊆ kinds') : KindsIn kinds' ps :=
  fun kind inner member => more (has kind inner member)

theorem Items.kindsIn {gap : List Char → Prop} {kinds : List Kind} {parts : List Cst}
    (items : Items gap kinds parts) : KindsIn kinds parts := by
  induction items with
  | nil => exact kindsIn_nil
  | cons _ kind _ ih => exact kindsIn_text.mpr (kindsIn_cons kind ih)

theorem Header.kindsIn {parts : List Cst} (header : Header parts) :
    KindsIn argumentKinds parts := by
  cases header with
  | nil => exact kindsIn_nil
  | cons _ kind tail => exact kindsIn_text.mpr (kindsIn_cons kind tail.kindsIn)

theorem Body.kindsIn {parts : List Cst} (body : Body parts) : KindsIn statementKinds parts :=
  Items.kindsIn body

theorem Condition.kindsIn {parts : List Cst} (test : Condition parts) :
    KindsIn conditionKinds parts := by
  obtain ⟨before, p, rfl, -, kind⟩ := test
  exact kindsIn_text.mpr (kindsIn_cons kind kindsIn_nil)

theorem Keyword.kindsIn {gap : Char → Bool} {parts : List Cst} (key : Keyword gap parts) :
    KindsIn [.anonymous] parts := by
  obtain ⟨before, word, rfl, -⟩ := key
  simp

/-- The children of a node are of the kinds that its own kind allows. -/
theorem Form.kindsIn {kind : Kind} {parts : List Cst} (rule : Form kind parts) :
    KindsIn (childKinds kind) parts := by
  cases rule with
  | program statements => simp [childKinds, statements.kindsIn]
  | token | comment | word | integer | singleQuoteString | variableName | error => simp
  | index kinds => simp [childKinds, kindsIn_of_hasKind kinds]
  | concatenation _ kinds => exact kindsIn_of_hasKind kinds
  | variableExpansion first kinds =>
    have index := (kindsIn_of_hasKind kinds).mono
      (show [.index] ⊆ childKinds .variableExpansion by decide)
    refine kindsIn_token.mpr ⟨by decide, kindsIn_append.mpr ⟨?_, index⟩⟩
    rcases first with rfl | ⟨name, -, -, rfl⟩ <;> simp [childKinds]
  | doubleQuoteString kinds =>
    refine kindsIn_token.mpr ⟨by decide, fun kind inner member => ?_⟩
    rcases kinds _ member with ⟨cs, plain⟩ | has
    · cases plain
    · exact kindsIn_cons (has.mono (by decide)) kindsIn_nil kind inner (by simp)
  | @commandSubstitution body close gap statements space kinds =>
    have close : KindsIn [.anonymous] close :=
      kindsIn_of_hasKind fun p member => ⟨.anonymous, by decide, _, kinds p member⟩
    simp only [kindsIn_append, kindsIn_token, kindsIn_text]
    exact ⟨⟨by decide, statements.kindsIn.mono (by decide)⟩, close.mono (by decide)⟩
  | command kind tail => exact kindsIn_cons kind tail.kindsIn
  | condition kind tail => exact kindsIn_text.mpr (kindsIn_cons kind tail.kindsIn)
  | functionDefinition arguments statements final =>
    simp only [kindsIn_append, kindsIn_token]
    exact ⟨⟨by decide, arguments.kindsIn.mono (by decide)⟩,
      statements.kindsIn.mono (by decide), final.kindsIn.mono (by decide)⟩
  | forStatement space inKeyword arguments statements final =>
    simp only [kindsIn_append, kindsIn_token, kindsIn_text, kindsIn_leaf]
    exact ⟨⟨⟨by decide, by decide, inKeyword.kindsIn.mono (by decide)⟩,
        arguments.kindsIn.mono (by decide)⟩,
      statements.kindsIn.mono (by decide), final.kindsIn.mono (by decide)⟩
  | whileStatement condition statements final =>
    simp only [kindsIn_append, kindsIn_token]
    exact ⟨⟨by decide, condition.kindsIn.mono (by decide)⟩,
      statements.kindsIn.mono (by decide), final.kindsIn.mono (by decide)⟩
  | beginStatement statements final =>
    simp only [kindsIn_append, kindsIn_token]
    exact ⟨by decide, statements.kindsIn.mono (by decide), final.kindsIn.mono (by decide)⟩
  | ifStatement condition statements elses final =>
    simp only [kindsIn_append, kindsIn_token]
    exact ⟨⟨⟨by decide, condition.kindsIn.mono (by decide), statements.kindsIn.mono (by decide)⟩,
      elses.kindsIn.mono (by decide)⟩, final.kindsIn.mono (by decide)⟩
  | elseIfClause space condition statements =>
    simp only [kindsIn_append, kindsIn_token, kindsIn_text]
    exact ⟨by decide, by decide, condition.kindsIn.mono (by decide),
      statements.kindsIn.mono (by decide)⟩
  | elseClause statements =>
    exact kindsIn_token.mpr ⟨by decide, statements.kindsIn.mono (by decide)⟩

/-- Every node around statements, the program apart, starts with a keyword or a parenthesis. -/
theorem Form.opening_token {kind : Kind} {parts : List Cst} (rule : Form kind parts)
    (program : kind ≠ .program) (body : .functionDefinition ∈ childKinds kind) :
    ∃ key more, key ≠ [] ∧ parts = .token key :: more := by
  cases rule with
  | program => contradiction
  | token | comment | word | integer | singleQuoteString | variableName | error | index
  | variableExpansion | doubleQuoteString | concatenation | command | condition =>
    simp [childKinds, argumentKinds, pieceKinds] at body
  | commandSubstitution => exact ⟨['('], _, by simp, rfl⟩
  | functionDefinition => exact ⟨functionWord, _, by simp [functionWord], rfl⟩
  | forStatement => exact ⟨forWord, _, by simp [forWord], rfl⟩
  | whileStatement => exact ⟨whileWord, _, by simp [whileWord], rfl⟩
  | beginStatement => exact ⟨beginWord, _, by simp [beginWord], rfl⟩
  | ifStatement => exact ⟨ifWord, _, by simp [ifWord], rfl⟩
  | elseIfClause | elseClause => exact ⟨elseWord, _, by simp [elseWord], rfl⟩

/-- The kinds of what stands before the statements of a node, and behind them. -/
def headKinds : List Kind := .anonymous :: .variableName :: argumentKinds ++ conditionKinds

def tailKinds : List Kind := .anonymous :: clauseKinds

/-- The statements of a node follow each other, with no keyword between them. -/
theorem Form.exists_body {kind : Kind} {parts : List Cst} (rule : Form kind parts)
    (holds : .functionDefinition ∈ childKinds kind) :
    ∃ head statements tail, parts = head ++ (statements ++ tail) ∧ KindsIn headKinds head ∧
      KindsIn statementKinds statements ∧ KindsIn tailKinds tail := by
  cases rule with
  | token | comment | word | integer | singleQuoteString | variableName | error | index
  | variableExpansion | doubleQuoteString | concatenation | command | condition =>
    simp [childKinds, argumentKinds, pieceKinds] at holds
  | @program body rest statements =>
    exact ⟨[], body, [.text rest], rfl, kindsIn_nil, statements.kindsIn, by simp⟩
  | @commandSubstitution body close gap statements space kinds =>
    have close' : KindsIn [.anonymous] close :=
      kindsIn_of_hasKind fun p member => ⟨.anonymous, by decide, _, kinds p member⟩
    exact ⟨[.token ['(']], body, .text gap :: close, rfl, by simp [headKinds],
      statements.kindsIn, kindsIn_text.mpr (close'.mono (by decide))⟩
  | @functionDefinition header body close arguments statements final =>
    exact ⟨.token functionWord :: header, body, close, rfl,
      kindsIn_token.mpr ⟨by decide, arguments.kindsIn.mono (by decide)⟩, statements.kindsIn,
      final.kindsIn.mono (by decide)⟩
  | @forStatement name gap link header body close space inKeyword arguments statements final =>
    refine ⟨.token forWord :: .text gap :: .leaf .variableName name :: link ++ header, body, close,
      rfl, ?_, statements.kindsIn, final.kindsIn.mono (by decide)⟩
    simp only [kindsIn_append, kindsIn_token, kindsIn_text, kindsIn_leaf]
    exact ⟨⟨by decide, by decide, inKeyword.kindsIn.mono (by decide)⟩,
      arguments.kindsIn.mono (by decide)⟩
  | @whileStatement test body close condition statements final =>
    exact ⟨.token whileWord :: test, body, close, rfl,
      kindsIn_token.mpr ⟨by decide, condition.kindsIn.mono (by decide)⟩, statements.kindsIn,
      final.kindsIn.mono (by decide)⟩
  | @beginStatement body close statements final =>
    exact ⟨[.token beginWord], body, close, rfl, by simp [headKinds], statements.kindsIn,
      final.kindsIn.mono (by decide)⟩
  | @ifStatement test body clauses close condition statements elses final =>
    refine ⟨.token ifWord :: test, body, clauses ++ close, by simp,
      kindsIn_token.mpr ⟨by decide, condition.kindsIn.mono (by decide)⟩, statements.kindsIn, ?_⟩
    exact kindsIn_append.mpr
      ⟨elses.kindsIn.mono (by decide), final.kindsIn.mono (by decide)⟩
  | @elseIfClause gap test body space condition statements =>
    refine ⟨.token elseWord :: .text gap :: .token ifWord :: test, body, [], by simp, ?_,
      statements.kindsIn, kindsIn_nil⟩
    simp only [kindsIn_token, kindsIn_text]
    exact ⟨by decide, by decide, condition.kindsIn.mono (by decide)⟩
  | @elseClause body statements =>
    exact ⟨[.token elseWord], body, [], by simp, by simp [headKinds], statements.kindsIn,
      kindsIn_nil⟩

/-- So a keyword with a function behind it has no comment before it. -/
theorem Form.not_comment_before {kind : Kind} {before inner inner' after : List Cst}
    (rule : Form kind (before ++ .node .anonymous inner :: after))
    (function : .node .functionDefinition inner' ∈ after) (comment : List Cst) :
    .node .comment comment ∉ before := by
  intro member
  have body : .functionDefinition ∈ childKinds kind :=
    rule.kindsIn _ inner' (by simp [function])
  obtain ⟨head, statements, tail, split, heads, bodies, tails⟩ := rule.exists_body body
  have behind : .node .functionDefinition inner' ∉ tail := fun late =>
    absurd (tails _ _ late) (by decide)
  rcases List.append_eq_append_iff.mp split with ⟨more, rfl, -⟩ | ⟨more, rfl, rest⟩
  · exact absurd (heads _ comment (List.mem_append_left _ member)) (by decide)
  · rcases List.append_eq_append_iff.mp rest with ⟨more', -, rfl⟩ | ⟨more', rfl, rest'⟩
    · exact behind (by simp [function])
    · cases more' with
      | nil =>
        rw [List.nil_append] at rest'
        exact behind (rest' ▸ List.mem_cons_of_mem _ function)
      | cons q more' =>
        obtain ⟨rfl, -⟩ := List.cons.inj rest'
        exact absurd (bodies .anonymous inner (by simp)) (by decide)

/-! ### Gaps between words -/

theorem Items.gap_before {gap : List Char → Prop} {kinds : List Kind} {parts : List Cst}
    (items : Items gap kinds parts) {before after : List Cst} {p : Cst}
    (split : parts = before ++ p :: after) (node : p.isNode = true) :
    ∃ front cs, before = front ++ [.text cs] ∧ gap cs := by
  induction items generalizing before with
  | nil => simp at split
  | @cons cs q more space kind tail ih =>
    match before, split with
    | [], split =>
      obtain ⟨rfl, -⟩ := List.cons.inj split
      simp [isNode] at node
    | [r], split =>
      obtain ⟨rfl, -⟩ := List.cons.inj split
      exact ⟨[], cs, rfl, space⟩
    | r :: r' :: before, split =>
      obtain ⟨-, split⟩ := List.cons.inj split
      obtain ⟨-, split⟩ := List.cons.inj split
      obtain ⟨front, cs', rfl, gap⟩ := ih split
      exact ⟨r :: r' :: front, cs', rfl, gap⟩

theorem Header.gap_before {parts : List Cst} (header : Header parts) {before after : List Cst}
    {p : Cst} (split : parts = before ++ p :: after) (node : p.isNode = true) :
    (∃ cs, before = [.text cs]) ∨ ∃ front cs, before = front ++ [.text cs] ∧ Gap cs := by
  cases header with
  | nil => simp at split
  | @cons cs q more space kind tail =>
    match before, split with
    | [], split =>
      obtain ⟨rfl, -⟩ := List.cons.inj split
      simp [isNode] at node
    | [r], split =>
      obtain ⟨rfl, -⟩ := List.cons.inj split
      exact Or.inl ⟨cs, rfl⟩
    | r :: r' :: before, split =>
      obtain ⟨-, split⟩ := List.cons.inj split
      obtain ⟨-, split⟩ := List.cons.inj split
      obtain ⟨front, cs', rfl, gap⟩ := tail.gap_before split node
      exact Or.inr ⟨r :: r' :: front, cs', rfl, gap⟩

/-- A word in the head of a function that is not the first node behind the keyword has a gap
before it. -/
theorem Form.gap_in_function {before inner after : List Cst}
    (rule : Form .functionDefinition (before ++ .node .word inner :: after)) :
    (∃ cs, before = [.token functionWord, .text cs]) ∨
      ∃ front cs, before = front ++ [.text cs] ∧ Gap cs := by
  generalize whole : before ++ .node .word inner :: after = parts at rule
  cases rule with
  | @functionDefinition header body close arguments statements final =>
    have later : .node .word inner ∉ body ++ close := by
      intro member
      have kinds : KindsIn (.anonymous :: statementKinds) (body ++ close) := kindsIn_append.mpr
        ⟨statements.kindsIn.mono (by decide), final.kindsIn.mono (by decide)⟩
      exact absurd (kinds _ _ member) (by decide)
    rcases List.append_eq_append_iff.mp whole with ⟨more, head, rest⟩ | ⟨more, rfl, rest⟩
    · cases more with
      | nil =>
        rw [List.nil_append] at rest
        exact absurd (rest ▸ List.mem_cons_self) later
      | cons p more =>
        obtain ⟨rfl, -⟩ := List.cons.inj rest
        cases before with
        | nil => cases head
        | cons q before =>
          obtain ⟨rfl, split⟩ := List.cons.inj head
          rcases arguments.gap_before split rfl with ⟨cs, rfl⟩ | ⟨front, cs, rfl, gap⟩
          · exact Or.inl ⟨cs, rfl⟩
          · exact Or.inr ⟨_ :: front, cs, rfl, gap⟩
    · rw [rest] at later
      simp at later

/-- So has every argument of a command. -/
theorem Form.gap_in_command {kind : Kind} {before inner after : List Cst}
    (rule : Form .command (before ++ .node kind inner :: after)) :
    before = [] ∨ before = [.text []] ∨ ∃ front cs, before = front ++ [.text cs] ∧ Gap cs := by
  generalize whole : before ++ .node kind inner :: after = parts at rule
  cases rule with
  | command first tail =>
    cases before with
    | nil => exact Or.inl rfl
    | cons q before =>
      obtain ⟨-, split⟩ := List.cons.inj whole
      obtain ⟨front, cs, rfl, gap⟩ := tail.gap_before split.symm rfl
      exact Or.inr (Or.inr ⟨q :: front, cs, rfl, gap⟩)
  | condition first tail =>
    match before, whole with
    | [], _ => exact Or.inl rfl
    | [q], whole =>
      obtain ⟨rfl, -⟩ := List.cons.inj whole
      exact Or.inr (Or.inl rfl)
    | q :: r :: before, whole =>
      obtain ⟨-, split⟩ := List.cons.inj whole
      obtain ⟨-, split⟩ := List.cons.inj split
      obtain ⟨front, cs, rfl, gap⟩ := tail.gap_before split.symm rfl
      exact Or.inr (Or.inr ⟨q :: r :: front, cs, rfl, gap⟩)

/-- The name in an expansion stands right behind the dollar sign. -/
theorem Form.name_in_expansion {before inner after : List Cst}
    (rule : Form .variableExpansion (before ++ .node .variableName inner :: after)) :
    before = [.token ['$']] ∧ ∃ cs ≠ [], Run isNameChar cs ∧ inner = [.text cs] := by
  generalize whole : before ++ .node .variableName inner :: after = parts at rule
  cases rule with
  | @variableExpansion name index first kinds =>
    have plain : ∀ front, index ≠ front ++ .node .variableName inner :: after := by
      rintro front rfl
      exact absurd (kindsIn_of_hasKind kinds .variableName inner (by simp)) (by decide)
    cases before with
    | nil => cases whole
    | cons p before =>
      obtain ⟨rfl, rest⟩ := List.cons.inj whole
      rcases first with rfl | ⟨cs, some, letters, rfl⟩
      · exact absurd rest.symm (plain before)
      · cases before with
        | nil =>
          obtain ⟨-, rfl⟩ := Cst.node.inj (List.cons.inj rest).1
          exact ⟨rfl, cs, some, letters, rfl⟩
        | cons q before => exact absurd (List.cons.inj rest).2.symm (plain before)

/-- The name in a `for` loop is the first node behind the keyword. -/
theorem Form.name_in_for {before inner after : List Cst}
    (rule : Form .forStatement (before ++ .node .variableName inner :: after)) :
    ∃ cs, before = [.token forWord, .text cs] := by
  generalize whole : before ++ .node .variableName inner :: after = parts at rule
  cases rule with
  | @forStatement name gap link header body close space inKeyword arguments statements final =>
    match before, whole with
    | [], whole => cases whole
    | [p], whole => cases whole
    | [p, q], whole =>
      obtain ⟨rfl, rest⟩ := List.cons.inj whole
      obtain ⟨rfl, -⟩ := List.cons.inj rest
      exact ⟨gap, rfl⟩
    | p :: q :: r :: before, whole =>
      simp only [List.cons_append, List.cons.injEq] at whole
      obtain ⟨-, -, -, rest⟩ := whole
      have kinds : KindsIn (.anonymous :: argumentKinds ++ statementKinds)
          (link ++ header ++ (body ++ close)) := by
        simp only [kindsIn_append]
        exact ⟨⟨inKeyword.kindsIn.mono (by decide), arguments.kindsIn.mono (by decide)⟩,
          statements.kindsIn.mono (by decide), final.kindsIn.mono (by decide)⟩
      rw [← rest] at kinds
      exact absurd (kinds .variableName inner (by simp)) (by decide)

end Script

end FishNav
