import FishNav.Proofs.Cursor.Tokens

/-!
# Statements by offsets

The reader by offsets finds the nodes of every statement, and it ends. The argument follows the
grammar: each procedure reads the parts that stand before it, and the text it leaves is shorter.
Two differences have to be bridged. A command passes the blanks behind its arguments, so it may stop
somewhere in the gap before the next statement (`Near`); and a clause ends where its last node ends
(`lastStop_raws`).
-/
namespace FishNav.Cursor

open Text (byteLength byteLength_append byteLength_cons length_dropWhile_le length_lt_of_dropWhile
  takeWhile_append_of_dropWhile not_of_dropWhile)
open Script (isBlank isSeparator endsWord endsArgument endsLine readWordFrom readWordFrom_append
  functionWord forWord inWord whileWord beginWord ifWord elseWord endWord Run)

variable {text cs : List Char} {fuel pos : Nat}

/-! ### Gaps -/

/-- The offset `stop` stands before `cs`, or behind some of the blanks at its front. -/
def Near (text cs : List Char) (stop : Nat) : Prop :=
  ∃ blanks rest, cs = blanks ++ rest ∧ Run isBlank blanks ∧ At text rest stop

theorem At.near (here : At text cs pos) : Near text cs pos :=
  ⟨[], cs, rfl, by simp [Run], here⟩

theorem At.near_of_blanks (here : At text (cs.dropWhile isBlank) pos) : Near text cs pos :=
  ⟨cs.takeWhile isBlank, _, List.takeWhile_append_dropWhile.symm, Script.run_takeWhile _ _, here⟩

theorem ReadsNode.near {parts : List Cst} {result : Option (Raw × Nat)}
    (reads : ReadsNode pos parts (At text cs) result) :
    ReadsNode pos parts (Near text cs) result := by
  obtain ⟨r, stop, found, node, there⟩ := reads
  exact ⟨r, stop, found, node, there.near⟩

/-- Separators are skipped to the same place from either side of the blanks. -/
theorem Near.skip {stop : Nat} (near : Near text cs stop) (here : At text cs pos) :
    Cursor.skip (isByte isSeparator) text stop = pos + byteLength (cs.takeWhile isSeparator) := by
  obtain ⟨blanks, rest, rfl, run, there⟩ := near
  rw [there.skip (agrees_isByte fun _ => ascii_isSeparator), here.offset there,
    List.takeWhile_append_of_pos run.separators, byteLength_append, Nat.add_assoc]

theorem At.offset_behind {p : Char → Bool} {stop : Nat} (here : At text cs pos)
    (there : At text (cs.dropWhile p) stop) : stop = pos + byteLength (cs.takeWhile p) := by
  rw [← List.takeWhile_append_dropWhile (p := p) (l := cs)] at here
  exact here.offset there

theorem takeWhile_isBlank_of_separators (cs : List Char) :
    (cs.dropWhile isSeparator).takeWhile isBlank = [] := by
  rcases next : cs.dropWhile isSeparator with _ | ⟨c, tail⟩
  · rfl
  · have stopped := not_of_dropWhile next
    simp only [isSeparator, Bool.or_eq_false_iff] at stopped
    simp [stopped.1.1]

/-- Where no blank is in front, none is passed. -/
theorem At.skip_tight (here : At text cs pos) (tight : cs.takeWhile isBlank = []) :
    Cursor.skip (isByte isBlank) text pos = pos := by
  rw [here.skip (agrees_isByte fun _ => ascii_isBlank), tight]
  rfl

theorem At.skip_blanks (here : At text cs pos) :
    Cursor.skip (isByte isBlank) text pos = pos + byteLength (cs.takeWhile isBlank) ∧
      At text (cs.dropWhile isBlank) (pos + byteLength (cs.takeWhile isBlank)) :=
  ⟨here.skip (agrees_isByte fun _ => ascii_isBlank), here.behind⟩

/-! ### Keywords that are there -/

theorem Opens.head {key : List Char} {c : Char} {tail : List Char} (opens : Opens key)
    (found : (readWordFrom c tail).value = key) : endsWord c = false := by
  subst found
  rw [Opens, head?_readWordFrom] at opens
  simpa using opens

theorem Opens.word {key : List Char} {c : Char} {tail : List Char} (opens : Opens key)
    (found : (readWordFrom c tail).value = key) :
    Script.word (c :: tail) = (key, (readWordFrom c tail).rest) := by
  rw [← found, (readWordFrom_eq_word (opens.head found)).1,
    (readWordFrom_eq_word (opens.head found)).2]

theorem At.keyword {key : List Char} (here : At text cs pos) (tight : cs.takeWhile isBlank = [])
    (found : (Script.word cs).1 = key) :
    Cursor.keyword text key pos = some (.token pos (pos + byteLength key), pos + byteLength key) ∧
      At text (Script.word cs).2 (pos + byteLength key) := by
  refine ⟨by simp [Cursor.keyword, here.skip_tight tight, here.nextWord?, found], ?_⟩
  rw [← Script.word_append cs, found] at here
  exact here.advance key

/-- The keyword that a statement starts with. -/
theorem At.keyword_from {key : List Char} {c : Char} (opens : Opens key)
    (here : At text (c :: cs) pos) (found : (readWordFrom c cs).value = key) :
    Cursor.nextWord? text pos = some key ∧
      Cursor.keyword text key pos = some (.token pos (pos + byteLength key), pos + byteLength key) ∧
      At text (readWordFrom c cs).rest (pos + byteLength key) := by
  have word := opens.word found
  have tight : (c :: cs).takeWhile isBlank = [] := by
    have go := opens.head found
    simp only [endsWord, endsArgument, isSeparator, Bool.or_eq_false_iff] at go
    simp [go]
  refine ⟨by rw [here.nextWord?, word], ?_⟩
  have key := here.keyword tight (congrArg Prod.fst word)
  rwa [word] at key

/-- The keyword behind the separators that `statements` has passed. -/
theorem closing_keyword (key : List Char) {stop : Nat} (opens : Opens key) (here : At text cs pos)
    (there : At text (cs.dropWhile isSeparator) stop) :
    ReadsNode pos (Script.keyword isSeparator key cs).value
      (At text (Script.keyword isSeparator key cs).rest) (keyword text key stop) := by
  refine keyword_reads key opens here ?_
  rw [there.skip_tight (takeWhile_isBlank_of_separators cs)]
  exact here.offset_behind there

theorem raws_token_cons (pos : Nat) (cs : List Char) (ps : List Cst) :
    raws pos (.token cs :: ps) =
      .token pos (pos + byteLength cs) :: raws (pos + byteLength cs) ps := by
  rw [raws_cons, raws_token, Cst.chars_token]
  rfl

theorem raws_keyword_append (pos : Nat) (key : List Char) (ps qs : List Cst) :
    raws pos (.token key :: ps ++ qs) =
      .token pos (pos + byteLength key) :: (raws (pos + byteLength key) ps ++
        raws (pos + byteLength key + byteLength (Cst.charsOfAll ps)) qs) := by
  rw [List.cons_append, raws_token_cons, raws_append]

theorem contains_word {stops : List (List Char)} (opens : ∀ key ∈ stops, Opens key) (c : Char)
    (tail : List Char) :
    stops.contains (Script.word (c :: tail)).1 = stops.contains (readWordFrom c tail).value := by
  rw [Bool.eq_iff_iff, List.contains_iff_mem, List.contains_iff_mem]
  constructor
  · intro member
    rwa [(word_eq_keyword_iff (opens _ member) c tail).mp rfl]
  · intro member
    rwa [(word_eq_keyword_iff (opens _ member) c tail).mpr rfl]

/-! ### The end of the last node -/

/-- Parts of which the last is a node. -/
def EndsInNode (parts : List Cst) : Prop := ∃ front kind inner, parts = front ++ [.node kind inner]

theorem EndsInNode.append {parts : List Cst} (ends : EndsInNode parts) (front : List Cst) :
    EndsInNode (front ++ parts) := by
  obtain ⟨middle, kind, inner, rfl⟩ := ends
  exact ⟨front ++ middle, kind, inner, (List.append_assoc _ _ _).symm⟩

theorem endsInNode_of_hasKind {p : Cst} {kinds : List Kind} (has : p.HasKind kinds) :
    EndsInNode [p] := by
  obtain ⟨kind, -, inner, rfl⟩ := has
  exact ⟨[], kind, inner, rfl⟩

theorem endsInNode_append_items {gap : List Char → Prop} {kinds : List Kind}
    {front parts : List Cst} (ends : EndsInNode front) (items : Script.Items gap kinds parts) :
    EndsInNode (front ++ parts) := by
  induction items generalizing front with
  | nil => rwa [List.append_nil]
  | @cons before p more _ has _ ih =>
    have node := (endsInNode_of_hasKind has).append (front ++ [.text before])
    simpa using ih node

theorem endsInNode_header {parts : List Cst} (header : Script.Header parts) (some : parts ≠ []) :
    EndsInNode parts := by
  cases header with
  | nil => exact absurd rfl some
  | cons _ has more => exact endsInNode_append_items ((endsInNode_of_hasKind has).append [_]) more

theorem endsInNode_branch (cs : List Char) : EndsInNode (Script.branch cs).value := by
  obtain ⟨test, body, split, ⟨before, p, rfl, -, has⟩, items⟩ := (Script.branch_yields cs).shape
  rw [split]
  exact endsInNode_append_items ((endsInNode_of_hasKind has).append [_]) items

theorem isEmpty_raws (pos : Nat) {parts : List Cst} (ends : EndsInNode parts) :
    (raws pos parts).isEmpty = false := by
  obtain ⟨front, kind, inner, rfl⟩ := ends
  rw [raws_append, raws_node]
  simp

/-- If the last part is a node, it ends where the parts end. -/
theorem lastStop_raws (start pos : Nat) {parts : List Cst} (ends : EndsInNode parts) :
    lastStop start (raws pos parts) = pos + byteLength (Cst.charsOfAll parts) := by
  obtain ⟨front, kind, inner, rfl⟩ := ends
  rw [raws_append, raws_node]
  simp [lastStop, Raw.stop, Nat.add_assoc]

/-! ### What each procedure finds -/

def PieceReads (text : List Char) (fuel : Nat) (c : Char) (cs : List Char) : Prop :=
  ∀ pos b, At text (c :: cs) pos → (∀ d, Ascii d → (b = d.toUInt8 ↔ c = d)) →
    endsArgument c = false →
    ReadsNode pos [(Script.piece c cs).value] (At text (Script.piece c cs).rest)
      (piece text fuel b pos)

def PiecesRead (text : List Char) (fuel : Nat) (cs : List Char) : Prop :=
  ∀ pos, At text cs pos →
    Reads pos (Script.pieces cs).value (At text (Script.pieces cs).rest) (pieces text fuel pos)

def ArgumentReads (text : List Char) (fuel : Nat) (c : Char) (cs : List Char) : Prop :=
  ∀ pos, At text (c :: cs) pos → endsArgument c = false →
    ReadsNode pos [(Script.argument c cs).value] (At text (Script.argument c cs).rest)
      (argument text fuel pos)

def ArgumentsRead (text : List Char) (fuel : Nat) (cs : List Char) : Prop :=
  ∀ pos, At text cs pos →
    Reads pos (Script.arguments cs).value (At text ((Script.arguments cs).rest.dropWhile isBlank))
      (lineArguments text fuel pos)

def ConditionReads (text : List Char) (fuel : Nat) (cs : List Char) : Prop :=
  ∀ pos, At text cs pos →
    ReadsNode pos (Script.condition cs).value (Near text (Script.condition cs).rest)
      (command text fuel (skip (isByte isBlank) text pos))

def StatementReads (text : List Char) (fuel : Nat) (c : Char) (cs : List Char) : Prop :=
  ∀ pos, At text (c :: cs) pos → endsArgument c = false → c ≠ '#' →
    ReadsNode pos [(Script.statement c cs).value] (Near text (Script.statement c cs).rest)
      (statement text fuel pos)

def StatementsRead (text : List Char) (fuel : Nat) (stops : List (List Char)) (cs : List Char) :
    Prop :=
  ∀ pos stop, At text cs pos → Near text cs stop →
    Reads pos (Script.statements stops cs).value
      (At text ((Script.statements stops cs).rest.dropWhile isSeparator))
      (statements text fuel stops stop)

/-- The statements of a block and the keyword that ends it. -/
def BlockReads (text : List Char) (fuel : Nat) (cs : List Char) : Prop :=
  ∀ pos stop, At text cs pos → Near text cs stop →
    ∃ body close middle last, statements text fuel [endWord] stop = some (body, middle) ∧
      keyword text endWord middle = some (close, last) ∧
      raws pos (Script.block cs).value = body ++ [close] ∧ At text (Script.block cs).rest last

/-- A condition and the statements that hang on it. -/
def BranchReads (text : List Char) (fuel : Nat) (cs : List Char) : Prop :=
  ∀ pos, At text cs pos →
    ∃ test body middle last,
      command text fuel (skip (isByte isBlank) text pos) = some (test, middle) ∧
      statements text fuel [endWord, elseWord] middle = some (body, last) ∧
      raws pos (Script.branch cs).value = test :: body ∧
      At text ((Script.branch cs).rest.dropWhile isSeparator) last

/-- A clause behind its keyword. -/
def ClauseReads (text : List Char) (fuel : Nat) (cs : List Char) : Prop :=
  ∀ pos, At text (elseWord ++ cs) pos → Script.word (elseWord ++ cs) = (elseWord, cs) →
    ReadsNode pos [(Script.elseClause cs).value]
      (At text ((Script.elseClause cs).rest.dropWhile isSeparator)) (elseClause text fuel pos)

def ClausesRead (text : List Char) (fuel : Nat) (cs : List Char) : Prop :=
  ∀ pos start, At text cs pos → At text (cs.dropWhile isSeparator) start →
    Reads pos (Script.elseClauses cs).value
      (At text ((Script.elseClauses cs).rest.dropWhile isSeparator)) (elseClauses text fuel start)

/-! ### Arguments -/

theorem piece_step {c : Char} (enough : 4 * cs.length < fuel)
    (body : StatementsRead text fuel [] cs) : PieceReads text (fuel + 1) c cs := by
  intro pos b here same go
  have test : ∀ d, Ascii d → c ≠ d → b ≠ d.toUInt8 := fun d ascii other equal =>
    other ((same d ascii).mp equal)
  rw [piece]
  by_cases dollar : c = '$'
  · subst dollar
    rw [Script.piece_expansion, if_pos ((same '$' (by decide)).mpr rfl)]
    exact expansion_reads here
  rw [if_neg (test '$' (by decide) dollar)]
  by_cases double : c = '"'
  · subst double
    obtain ⟨stop, found, there⟩ := doubleQuoted_reads cs enough (here.next (by decide))
    have spelled := (Script.piece_yields '"' cs).chars
    rw [(Script.piece_double cs).1, (Script.piece_double cs).2] at spelled ⊢
    rw [if_pos ((same '"' (by decide)).mpr rfl)]
    refine .node here spelled there ?_
    rw [found, raws_punctuation pos (by decide)]
    rfl
  rw [if_neg (test '"' (by decide) double)]
  by_cases single : c = '\''
  · subst single
    rw [Script.piece_single, if_pos ((same '\'' (by decide)).mpr rfl)]
    exact singleQuoted_reads here
  rw [if_neg (test '\'' (by decide) single)]
  by_cases paren : c = '('
  · subst paren
    have inside := here.next (by decide)
    obtain ⟨middle, found, there⟩ := body _ _ inside inside.near
    obtain ⟨last, closed, there'⟩ := closing_reads (c := ')') (by decide) there
    have spelled := (Script.piece_yields '(' cs).chars
    rw [(Script.piece_substitution cs).1, (Script.piece_substitution cs).2] at spelled ⊢
    rw [if_pos ((same '(' (by decide)).mpr rfl)]
    refine .node here spelled there' ?_
    have close := (inside.behind_parts (Script.statements_yields [] cs)).offset_behind there
    rw [found, List.cons_append, raws_punctuation pos (by decide), raws_append, raws_text]
    simp only [Option.bind_eq_bind, Option.bind_some, Option.some.inj closed, Text.skip, ← close]
    rfl
  rw [if_neg (test '(' (by decide) paren)]
  have word : endsWord c = false := by simp [endsWord, go, dollar, double, single, paren]
  rw [(Script.piece_word cs dollar double single paren).1,
    (Script.piece_word cs dollar double single paren).2]
  exact bareWord_reads word here

/-- The pieces of an argument, of which the first starts with `c`. -/
theorem piece_cons {c : Char} (first : PieceReads text fuel c cs)
    (more : PiecesRead text fuel (Script.piece c cs).rest) (here : At text (c :: cs) pos)
    (go : endsArgument c = false) :
    Reads pos ((Script.piece c cs).value :: (Script.pieces (Script.piece c cs).rest).value)
      (At text (Script.pieces (Script.piece c cs).rest).rest) (pieces text (fuel + 1) pos) := by
  obtain ⟨b, peek, same, test⟩ := here.peek_cons
  rw [pieces]
  simp only [peek, test endsArgument fun _ => ascii_endsArgument, go]
  refine .cons (first pos b here same go) fun stop there => ?_
  obtain rfl := (here.behind_node (Script.piece_yields c cs)).unique there
  exact more _ there

theorem pieces_step (more : ∀ c tail, cs = c :: tail →
    PieceReads text fuel c tail ∧ PiecesRead text fuel (Script.piece c tail).rest) :
    PiecesRead text (fuel + 1) cs := by
  intro pos here
  rcases cs with _ | ⟨c, tail⟩
  · rw [(Script.pieces_stop [] (by simp)).1, (Script.pieces_stop [] (by simp)).2, pieces]
    exact ⟨pos, by simp only [here.peek_nil, raws_nil], here⟩
  cases ends : endsArgument c with
  | true =>
    have stop : ∀ d, (c :: tail).head? = some d → endsArgument d = true := by simpa using ends
    obtain ⟨b, peek, -, test⟩ := here.peek_cons
    rw [(Script.pieces_stop _ stop).1, (Script.pieces_stop _ stop).2, pieces]
    simp only [peek, test endsArgument fun _ => ascii_endsArgument, ends]
    exact ⟨pos, by simp, here⟩
  | false =>
    rw [(Script.pieces_step tail ends).1, (Script.pieces_step tail ends).2]
    exact piece_cons (more c tail rfl).1 (more c tail rfl).2 here ends

theorem argument_step {c : Char} (first : PieceReads text fuel c cs)
    (more : PiecesRead text fuel (Script.piece c cs).rest) :
    ArgumentReads text (fuel + 2) c cs := by
  intro pos here go
  obtain ⟨stop, found, there⟩ := piece_cons first more here go
  have spelled := (Script.argument_yields c cs).chars
  rw [(Script.argument_eq c cs).1, (Script.argument_eq c cs).2] at spelled ⊢
  obtain ⟨kind, -, inner, node⟩ := (Script.piece_yields c cs).kind
  rw [argument, found]
  rcases parts : (Script.pieces (Script.piece c cs).rest).value with _ | ⟨q, qs⟩
  · refine ⟨_, stop, ?_, node ▸ raws_node pos kind inner, there⟩
    rw [node, raws_node]
    rfl
  · have member : q ∈ (Script.pieces (Script.piece c cs).rest).value := by simp [parts]
    obtain ⟨kind', -, inner', node'⟩ := (Script.pieces_yields _).shape q member
    rw [parts] at spelled
    refine .node here spelled there ?_
    rw [node, node', raws_cons, raws_node, raws_cons _ (.node kind' inner'), raws_node]
    rfl

theorem endsArgument_of_endsLine {c : Char} (line : endsLine c = false)
    (blank : isBlank c = false) : endsArgument c = false := by
  simp only [endsLine, Bool.or_eq_false_iff] at line
  simp [endsArgument, isSeparator, blank, line]

theorem arguments_step (more : ∀ c tail, cs.dropWhile isBlank = c :: tail →
    ArgumentReads text fuel c tail ∧ ArgumentsRead text fuel (Script.argument c tail).rest) :
    ArgumentsRead text (fuel + 1) cs := by
  intro pos here
  obtain ⟨moved, start⟩ := here.skip_blanks
  rw [lineArguments]
  simp only [moved]
  rcases Script.arguments_cases cs with ⟨c, tail, next, go⟩ | ends
  · rw [next] at start
    obtain ⟨b, peek, -, test⟩ := start.peek_cons
    have line : atLineEnd text (pos + byteLength (cs.takeWhile isBlank)) = false := by
      simp [atLineEnd, peek, test endsLine fun _ => ascii_endsLine, go]
    rw [(Script.arguments_step next go).1, (Script.arguments_step next go).2, line]
    refine .text (.cons ((more c tail next).1 _ start ?_) fun stop there => ?_)
    · exact endsArgument_of_endsLine go (not_of_dropWhile next)
    · obtain rfl := (start.behind_node (Script.argument_yields c tail)).unique there
      exact (more c tail next).2 _ there
  · have line : atLineEnd text (pos + byteLength (cs.takeWhile isBlank)) = true := by
      rcases next : cs.dropWhile isBlank with _ | ⟨c, tail⟩
      · rw [next] at start
        simp [atLineEnd, start.peek_nil]
      · rw [next] at start
        obtain ⟨b, peek, -, test⟩ := start.peek_cons
        simp [atLineEnd, peek, test endsLine fun _ => ascii_endsLine, ends c tail next]
    rw [(Script.arguments_stop ends).1, (Script.arguments_stop ends).2, line]
    exact ⟨_, by simp, start⟩

/-! ### Commands -/

theorem command_reads (arguments : ArgumentsRead text fuel cs)
    (some : (Script.arguments cs).value ≠ []) (here : At text cs pos) :
    ReadsNode pos [.node .command (Script.arguments cs).value]
      (Near text (Script.arguments cs).rest) (command text (fuel + 1) pos) := by
  obtain ⟨stop, found, there⟩ := arguments pos here
  have ends := endsInNode_header (Script.arguments_yields cs).shape some
  refine ⟨_, stop, ?_, raws_node pos _ _, there.near_of_blanks⟩
  rw [command, found]
  simp only [Option.bind_eq_bind, Option.bind_some, isEmpty_raws pos ends,
    lastStop_raws pos pos ends]
  rfl

/-- Where a condition is missing, the character that ends the line is taken, which is one byte. -/
theorem command_missing (arguments : ArgumentsRead text fuel cs)
    (ends : ∀ c tail, cs.dropWhile isBlank = c :: tail → endsLine c = true)
    (tight : cs.takeWhile isBlank = []) (here : At text cs pos) :
    ReadsNode pos [(Script.missing cs).value] (At text (Script.missing cs).rest)
      (command text (fuel + 1) pos) := by
  obtain ⟨stop, found, there⟩ := arguments pos here
  rw [(Script.arguments_stop ends).1] at found
  rw [(Script.arguments_stop ends).2] at there
  have same := here.offset_behind there
  rw [tight, Text.byteLength_nil, Nat.add_zero] at same
  subst same
  have result : command text (fuel + 1) stop =
      Option.some (.leaf .error stop (min (stop + 1) (bytes text).length),
        min (stop + 1) (bytes text).length) := by
    rw [command, found]
    rfl
  rw [result, here.length]
  rcases cs with _ | ⟨c, tail⟩
  · exact .leaf here (by simp)
  · have blank : isBlank c = false := Bool.eq_false_iff.mpr fun blank => by simp [blank] at tight
    have ascii : Ascii c := ascii_endsLine (ends c tail (by simp [blank]))
    refine .leaf here ?_
    have room : min (stop + 1) (stop + byteLength (c :: tail)) = stop + byteLength [c] := by
      simp only [byteLength_cons, Text.byteLength_nil, ascii.size]
      omega
    rw [room]

theorem condition_step (arguments : ArgumentsRead text fuel (cs.dropWhile isBlank)) :
    ConditionReads text (fuel + 1) cs := by
  intro pos here
  obtain ⟨moved, start⟩ := here.skip_blanks
  rw [moved]
  by_cases none : (Script.arguments (cs.dropWhile isBlank)).value = []
  · have ends : ∀ c tail, (cs.dropWhile isBlank).dropWhile isBlank = c :: tail →
        endsLine c = true := by
      rcases Script.arguments_cases (cs.dropWhile isBlank) with ⟨c, tail, next, go⟩ | ends
      · rw [(Script.arguments_step next go).1] at none
        exact absurd none (List.cons_ne_nil _ _)
      · exact ends
    obtain ⟨r, stop, found, node, there⟩ := command_missing arguments ends
      (Script.takeWhile_dropWhile isBlank cs) start
    rw [(Script.condition_missing none).1, (Script.condition_missing none).2]
    exact ⟨r, stop, found, (raws_text _ _ _).trans node, there.near⟩
  · obtain ⟨r, stop, found, node, there⟩ := command_reads arguments none start
    rw [(Script.condition_command none).1, (Script.condition_command none).2]
    exact ⟨r, stop, found, (raws_text _ _ _).trans node, there⟩

/-! ### Statements -/

/-- One round of the loop over statements. -/
theorem statements_step {stops : List (List Char)} (opens : ∀ key ∈ stops, Opens key)
    (first : ∀ c tail, cs.dropWhile isSeparator = c :: tail → StatementReads text fuel c tail)
    (more : ∀ rest : List Char, rest.length < cs.length → StatementsRead text fuel stops rest) :
    StatementsRead text (fuel + 1) stops cs := by
  intro pos stop here near
  have start := here.behind (q := isSeparator)
  rw [statements]
  simp only [near.skip here]
  rcases next : cs.dropWhile isSeparator with _ | ⟨c, tail⟩
  · rw [next] at start
    rw [(Script.statements_end next).1, (Script.statements_end next).2, next]
    exact ⟨_, by simp only [start.peek_nil, raws_nil], start⟩
  have shorter := length_lt_of_dropWhile next
  rw [next] at start
  obtain ⟨b, peek, same, -⟩ := start.peek_cons
  by_cases close : c = ')'
  · subst close
    rw [(Script.statements_close next).1, (Script.statements_close next).2, next]
    exact ⟨_, by simp only [peek, (same ')' (by decide)).mpr rfl, if_true, raws_nil], start⟩
  have unclosed : b ≠ ')'.toUInt8 := fun equal => close ((same ')' (by decide)).mp equal)
  by_cases hash : c = '#'
  · subst hash
    have shorter' := length_dropWhile_le (· != '\n') tail
    rw [(Script.statements_comment stops next).1, (Script.statements_comment stops next).2]
    simp only [peek, (same '#' (by decide)).mpr rfl]
    have split : '#' :: tail =
        ('#' :: tail.takeWhile (· != '\n')) ++ tail.dropWhile (· != '\n') := by simp
    have spelled := start
    rw [split] at spelled
    refine .text (.cons (comment_reads start) fun stop there => ?_)
    rw [Cst.chars_leaf, ← spelled.offset there]
    exact more _ (by omega) stop stop there there.near
  have plain : b ≠ '#'.toUInt8 := fun equal => hash ((same '#' (by decide)).mp equal)
  simp only [peek, unclosed, plain, if_false, start.nextWord?, Option.bind_eq_bind,
    Option.bind_some, contains_word opens]
  cases go : stops.contains (readWordFrom c tail).value with
  | true =>
    obtain ⟨value, rest⟩ := Script.statements_stop next close hash go
    rw [value, rest, next]
    exact ⟨_, by simp, start⟩
  | false =>
    have shorter' := (Script.statement c tail).le
    have argument : endsArgument c = false := by
      simp [endsArgument, not_of_dropWhile next, close]
    obtain ⟨value, rest⟩ := Script.statements_step next close hash go
    rw [value, rest]
    simp only [Bool.false_eq_true, if_false]
    refine .text (.cons (first c tail next _ start argument hash) fun stop there => ?_)
    exact more _ (by omega) _ stop (start.behind_node (Script.statement_yields c tail)) there

theorem block_step (body : StatementsRead text fuel [endWord] cs) : BlockReads text fuel cs := by
  intro pos stop here near
  obtain ⟨middle, found, there⟩ := body pos stop here near
  obtain ⟨close, last, found', node, there'⟩ := closing_keyword endWord (by decide)
    (here.behind_parts (Script.statements_yields [endWord] cs)) there
  refine ⟨_, close, middle, last, found, found', ?_, ?_⟩
  · rw [(Script.block_eq cs).1, raws_append, node]
  · rw [(Script.block_eq cs).2]
    exact there'

theorem branch_step (condition : ConditionReads text fuel cs)
    (body : StatementsRead text fuel [endWord, elseWord] (Script.condition cs).rest) :
    BranchReads text fuel cs := by
  intro pos here
  obtain ⟨test, middle, found, node, near⟩ := condition pos here
  obtain ⟨last, found', there⟩ :=
    body _ middle (here.behind_parts (Script.condition_yields cs)) near
  refine ⟨test, _, middle, last, found, found', ?_, ?_⟩
  · rw [(Script.branch_eq cs).1, raws_append, node]
    rfl
  · rw [(Script.branch_eq cs).2]
    exact there

/-! The statement that starts with a keyword, and the command that starts with another word. -/

/-- The name of a loop variable and the `in` behind it; each of them may be missing. -/
theorem loopVariable_reads (here : At text cs pos) :
    let name := Script.readWord (Text.skip isBlank cs).rest
    let link := Script.keyword isBlank inWord name.rest
    let parts := .text (Text.skip isBlank cs).value :: .leaf .variableName name.value :: link.value
    let start := skip (isByte isBlank) text pos
    ∃ r stop, keyword text inWord (wordEnd text start) = some (r, stop) ∧
      raws pos parts = [.leaf .variableName start (wordEnd text start), r] ∧
      Cst.charsOfAll parts ++ link.rest = cs ∧ link.rest.length ≤ cs.length ∧
      At text link.rest stop := by
  obtain ⟨moved, name⟩ := here.skip_blanks
  have nameEnd := name.wordEnd
  have split := Script.word_append (cs.dropWhile isBlank)
  rw [← split] at name
  have linkStart := name.advance _
  obtain ⟨r, stop, found, node, there⟩ :=
    keyword_reads inWord (by decide) linkStart linkStart.skip_blanks.1
  have chars := (Script.keyword_yields isBlank inWord (Script.word (cs.dropWhile isBlank)).2).chars
  simp only [moved, nameEnd]
  refine ⟨r, stop, found, ?_, by simp [Text.skip, Script.readWord, chars, split], ?_, there⟩
  · rw [raws_text, raws_cons, raws_leaf, Cst.chars_leaf]
    exact congrArg (_ :: ·) node
  · exact Nat.le_trans (Script.keyword isBlank inWord _).le
      (Nat.le_trans (Script.readWord _).le (Text.skip isBlank cs).le)

theorem opens_openers : ∀ key ∈ Script.openers, Opens key := by decide

section Kinds

variable {c : Char} (here : At text (c :: cs) pos)
include here

/-- The two readings of a function agree if those of its head and its body do. -/
theorem function_reads (found : (readWordFrom c cs).value = functionWord)
    (header : ArgumentsRead text fuel (readWordFrom c cs).rest)
    (block : BlockReads text fuel (Script.arguments (readWordFrom c cs).rest).rest) :
    ReadsNode pos [(Script.statement c cs).value] (At text (Script.statement c cs).rest)
      (statement text (fuel + 2) pos) := by
  obtain ⟨word, key, start⟩ := here.keyword_from (by decide) found
  obtain ⟨middle, arguments, there⟩ := header _ start
  obtain ⟨body, close, middle', last, statements, final, nodes, there'⟩ :=
    block _ middle (start.behind_parts (Script.arguments_yields _)) there.near_of_blanks
  have spelled := (Script.statement_yields c cs).chars
  rw [(Script.statement_function found).1, (Script.statement_function found).2] at spelled ⊢
  refine .node here spelled there' ?_
  rw [raws_keyword_append, nodes, statement, word]
  change functionDefinition text (fuel + 1) pos = _
  rw [functionDefinition]
  simp only [key, arguments, statements, final, Option.bind_eq_bind, Option.bind_some,
    List.cons_append, List.append_assoc, Option.pure_def]

theorem for_reads (found : (readWordFrom c cs).value = forWord)
    (more : ∀ rest : List Char, rest.length ≤ cs.length →
      ArgumentsRead text fuel rest ∧ BlockReads text fuel (Script.arguments rest).rest) :
    ReadsNode pos [(Script.statement c cs).value] (At text (Script.statement c cs).rest)
      (statement text (fuel + 2) pos) := by
  obtain ⟨word, key, start⟩ := here.keyword_from (by decide) found
  obtain ⟨link, stop, linked, names, chars, shorter, there⟩ := loopVariable_reads start
  obtain ⟨value, rest⟩ := Script.statement_for found
  have spelled := (Script.statement_yields c cs).chars
  rw [value, rest] at spelled ⊢
  have shorter' := (readWordFrom c cs).le
  obtain ⟨header, block⟩ := more _ (Nat.le_trans shorter shorter')
  obtain ⟨middle, arguments, there'⟩ := header _ there
  rw [← chars] at start
  obtain rfl := start.offset there
  obtain ⟨body, close, middle', last, statements, final, nodes, there''⟩ :=
    block _ middle (there.behind_parts (Script.arguments_yields _)) there'.near_of_blanks
  refine .node here spelled there'' ?_
  rw [List.append_assoc, raws_keyword_append, names, raws_append, nodes, statement, word]
  change forStatement text (fuel + 1) pos = _
  rw [forStatement]
  simp only [key, linked, arguments, statements, final, Option.bind_eq_bind, Option.bind_some,
    List.cons_append, List.nil_append, List.append_assoc, Option.pure_def]

theorem while_reads (found : (readWordFrom c cs).value = whileWord)
    (condition : ConditionReads text fuel (readWordFrom c cs).rest)
    (block : BlockReads text fuel (Script.condition (readWordFrom c cs).rest).rest) :
    ReadsNode pos [(Script.statement c cs).value] (At text (Script.statement c cs).rest)
      (statement text (fuel + 2) pos) := by
  obtain ⟨word, key, start⟩ := here.keyword_from (by decide) found
  obtain ⟨test, middle, tested, node, near⟩ := condition _ start
  obtain ⟨body, close, middle', last, statements, final, nodes, there⟩ :=
    block _ middle (start.behind_parts (Script.condition_yields _)) near
  have spelled := (Script.statement_yields c cs).chars
  rw [(Script.statement_while found).1, (Script.statement_while found).2] at spelled ⊢
  refine .node here spelled there ?_
  rw [raws_keyword_append, node, nodes, statement, word]
  change blockStatement text (fuel + 1) .whileStatement whileWord true pos = _
  rw [blockStatement]
  simp only [key, tested, statements, final, if_true, Option.map_some, Option.bind_eq_bind,
    Option.bind_some, List.cons_append, List.nil_append, Option.pure_def]

theorem begin_reads (found : (readWordFrom c cs).value = beginWord)
    (block : BlockReads text fuel (readWordFrom c cs).rest) :
    ReadsNode pos [(Script.statement c cs).value] (At text (Script.statement c cs).rest)
      (statement text (fuel + 2) pos) := by
  obtain ⟨word, key, start⟩ := here.keyword_from (by decide) found
  obtain ⟨body, close, middle, last, statements, final, nodes, there⟩ := block _ _ start start.near
  have spelled := (Script.statement_yields c cs).chars
  rw [(Script.statement_begin found).1, (Script.statement_begin found).2] at spelled ⊢
  refine .node here spelled there ?_
  rw [raws_token_cons, nodes, statement, word]
  change blockStatement text (fuel + 1) .beginStatement beginWord false pos = _
  rw [blockStatement]
  simp only [key, statements, final, Bool.false_eq_true, if_false, Option.bind_eq_bind,
    Option.bind_some, List.cons_append, List.nil_append, Option.pure_def]

theorem if_reads (found : (readWordFrom c cs).value = ifWord)
    (branch : BranchReads text fuel (readWordFrom c cs).rest)
    (clauses : ClausesRead text fuel (Script.branch (readWordFrom c cs).rest).rest) :
    ReadsNode pos [(Script.statement c cs).value] (At text (Script.statement c cs).rest)
      (statement text (fuel + 2) pos) := by
  obtain ⟨word, key, start⟩ := here.keyword_from (by decide) found
  obtain ⟨test, body, middle, last, tested, statements, nodes, there⟩ := branch _ start
  have behind := start.behind_parts (Script.branch_yields (readWordFrom c cs).rest)
  obtain ⟨stop, elses, there'⟩ := clauses _ last behind there
  obtain ⟨close, final, closed, node, there''⟩ := closing_keyword endWord (by decide)
    (behind.behind_parts (Script.elseClauses_yields _)) there'
  have spelled := (Script.statement_yields c cs).chars
  rw [(Script.statement_if found).1, (Script.statement_if found).2] at spelled ⊢
  refine .node here spelled there'' ?_
  rw [List.append_assoc, raws_keyword_append, nodes, raws_append, node, statement, word]
  change ifStatement text (fuel + 1) pos = _
  rw [ifStatement]
  simp only [key, tested, statements, elses, closed, Option.bind_eq_bind, Option.bind_some,
    List.cons_append, List.append_assoc, Option.pure_def]

theorem command_statement_reads (other : (readWordFrom c cs).value ∉ Script.openers)
    (go : endsArgument c = false) (plain : c ≠ '#') (argument : ArgumentReads text fuel c cs)
    (more : ArgumentsRead text fuel (Script.argument c cs).rest) :
    ReadsNode pos [(Script.statement c cs).value] (Near text (Script.statement c cs).rest)
      (statement text (fuel + 3) pos) := by
  have blank : isBlank c = false := by
    simp only [endsArgument, isSeparator, Bool.or_eq_false_iff] at go
    exact go.1.1.1
  have next : (c :: cs).dropWhile isBlank = c :: cs := by simp [blank]
  have line : endsLine c = false := by
    simp only [endsArgument, isSeparator, Bool.or_eq_false_iff] at go
    simp [endsLine, go, plain]
  have arguments : ArgumentsRead text (fuel + 1) (c :: cs) := arguments_step fun d tail same => by
    obtain ⟨rfl, rfl⟩ := List.cons.inj (next.symm.trans same)
    exact ⟨argument, more⟩
  obtain ⟨value, rest⟩ := Script.arguments_step next line
  have reads := command_reads arguments (by rw [value]; exact List.cons_ne_nil _ _) here
  have different : ∀ key ∈ Script.openers, (Script.word (c :: cs)).1 ≠ key :=
    fun key member same =>
      other ((word_eq_keyword_iff (opens_openers key member) c cs).mp same ▸ member)
  simp only [Script.openers, List.forall_mem_cons] at different
  obtain ⟨noFunction, noFor, noWhile, noBegin, noIf, -⟩ := different
  rw [(Script.statement_command other).1, (Script.statement_command other).2, statement,
    here.nextWord?]
  simp only [Option.bind_eq_bind, Option.bind_some, noFunction, noFor, noWhile, noBegin, noIf,
    if_false]
  rw [value, rest] at reads
  obtain ⟨r, stop, found, node, near⟩ := reads
  refine ⟨r, stop, found, ?_, near⟩
  rw [← node, raws_node, raws_node]
  simp [blank]

end Kinds

/-! ### Clauses -/

theorem clause_step (branch : BranchReads text fuel (Script.word (cs.dropWhile isBlank)).2)
    (body : StatementsRead text fuel [endWord] cs) : ClauseReads text (fuel + 1) cs := by
  intro pos here word
  have first : (Script.word (elseWord ++ cs)).1 = elseWord := by rw [word]
  obtain ⟨key, start⟩ := here.keyword rfl first
  simp only [word] at start
  obtain ⟨moved, ahead⟩ := start.skip_blanks
  rw [elseClause]
  simp only [key, moved, ahead.nextWord?, Option.bind_eq_bind, Option.bind_some]
  by_cases conditional : (Script.word (cs.dropWhile isBlank)).1 = ifWord
  · obtain ⟨key', start'⟩ := ahead.keyword (Script.takeWhile_dropWhile isBlank cs) conditional
    obtain ⟨test, statements, middle, last, tested, found, nodes, there⟩ := branch _ start'
    have ends : EndsInNode (.token elseWord :: .text (cs.takeWhile isBlank) :: .token ifWord ::
        (Script.branch (Script.word (cs.dropWhile isBlank)).2).value) :=
      (endsInNode_branch _).append [_, _, _]
    rw [(Script.elseClause_if conditional).1, (Script.elseClause_if conditional).2]
    refine ⟨_, last, ?_, raws_node pos _ _, there⟩
    rw [← lastStop_raws pos pos ends, raws_token_cons, raws_text, raws_token_cons, nodes]
    simp only [conditional, if_true, key', tested, found, Option.bind_some]
    rfl
  · obtain ⟨last, found, there⟩ := body _ _ start ahead.near_of_blanks
    have ends : EndsInNode (.token elseWord :: (Script.statements [endWord] cs).value) :=
      endsInNode_append_items ⟨[], _, _, rfl⟩ (Script.statements_yields [endWord] cs).shape
    rw [(Script.elseClause_plain conditional).1, (Script.elseClause_plain conditional).2]
    refine ⟨_, last, ?_, raws_node pos _ _, there⟩
    rw [← lastStop_raws pos pos ends, raws_token_cons]
    simp only [conditional, if_false, found, Option.bind_some]
    rfl

theorem clauses_step (more : ∀ rest : List Char, rest.length < cs.length →
    ClauseReads text fuel rest ∧ ClausesRead text fuel (Script.elseClause rest).rest) :
    ClausesRead text (fuel + 1) cs := by
  intro pos start here there
  obtain rfl := here.offset_behind there
  rw [elseClauses]
  by_cases found : ∃ c tail, cs.dropWhile isSeparator = c :: tail ∧
      (readWordFrom c tail).value = elseWord
  · obtain ⟨c, tail, next, key⟩ := found
    have shorter := length_lt_of_dropWhile next
    have shorter' := (readWordFrom c tail).le
    have opens : Opens elseWord := by decide
    have split := readWordFrom_append c tail
    rw [key] at split
    rw [next] at there
    obtain ⟨clause, clauses⟩ := more (readWordFrom c tail).rest (by omega)
    rw [(Script.elseClauses_step next key).1, (Script.elseClauses_step next key).2]
    simp only [there.nextWord?, opens.word key, Option.bind_eq_bind, Option.bind_some, if_true]
    rw [← split] at there
    refine .text (.cons (clause _ there ?_) fun stop there' => ?_)
    · rw [split]
      exact opens.word key
    · exact clauses _ stop (there.behind_node (Script.elseClause_yields _)) there'
  · have other : ∀ c tail, cs.dropWhile isSeparator = c :: tail →
        (readWordFrom c tail).value ≠ elseWord :=
      fun c tail next same => found ⟨c, tail, next, same⟩
    have word : (Script.word (cs.dropWhile isSeparator)).1 ≠ elseWord := by
      rcases next : cs.dropWhile isSeparator with _ | ⟨c, tail⟩
      · exact (List.cons_ne_nil _ _).symm
      · exact fun same => other c tail next ((word_eq_keyword_iff (by decide) c tail).mp same)
    rw [(Script.elseClauses_stop other).1, (Script.elseClauses_stop other).2]
    simp only [there.nextWord?, Option.bind_eq_bind, Option.bind_some, word, if_false]
    exact ⟨_, by simp, there⟩

/-! ### Every text can be read

A procedure calls the others where less text is left, or passes the text it has on to a procedure
further down the grammar. Eight calls for each character are therefore enough. -/

variable (text)

mutual

/-- The two readings of statements agree. The induction is on the length of the text; eight units of
fuel for each character are enough for all procedures on the way. -/
theorem statements_reads (stops : List (List Char)) (opens : ∀ key ∈ stops, Opens key)
    (cs : List Char) (fuel : Nat) (enough : 8 * cs.length < fuel) :
    StatementsRead text fuel stops cs := by
  obtain ⟨fuel, rfl⟩ := Nat.exists_eq_add_of_lt enough
  refine statements_step opens (fun c tail next => ?_) (fun rest shorter => ?_)
  · have shorter := length_lt_of_dropWhile next
    exact statement_reads c tail _ (by omega)
  · exact statements_reads stops opens rest _ (by omega)
termination_by 4 * cs.length + 3

theorem block_reads (cs : List Char) (fuel : Nat) (enough : 8 * cs.length < fuel) :
    BlockReads text fuel cs :=
  block_step (statements_reads [endWord] (by decide) cs fuel enough)
termination_by 4 * cs.length + 4

theorem statement_reads (c : Char) (cs : List Char) (fuel : Nat)
    (enough : 8 * cs.length + 6 < fuel) : StatementReads text fuel c cs := by
  intro pos here go plain
  obtain ⟨fuel, rfl⟩ : ∃ less, fuel = less + 3 := ⟨fuel - 3, by omega⟩
  have shorter := (readWordFrom c cs).le
  by_cases function : (readWordFrom c cs).value = functionWord
  · have shorter' := (Script.arguments (readWordFrom c cs).rest).le
    exact (function_reads here function (arguments_reads _ _ (by omega))
      (block_reads _ _ (by omega))).near
  by_cases loop : (readWordFrom c cs).value = forWord
  · refine (for_reads here loop fun rest shorter' => ?_).near
    have shorter'' := (Script.arguments rest).le
    exact ⟨arguments_reads rest _ (by omega), block_reads _ _ (by omega)⟩
  by_cases loop : (readWordFrom c cs).value = whileWord
  · have shorter' := (Script.condition (readWordFrom c cs).rest).le
    exact (while_reads here loop (condition_reads _ _ (by omega))
      (block_reads _ _ (by omega))).near
  by_cases begins : (readWordFrom c cs).value = beginWord
  · exact (begin_reads here begins (block_reads _ _ (by omega))).near
  by_cases conditional : (readWordFrom c cs).value = ifWord
  · have shorter' := (Script.branch (readWordFrom c cs).rest).le
    exact (if_reads here conditional (branch_reads _ _ (by omega))
      (elseClauses_reads _ _ (by omega))).near
  have other : (readWordFrom c cs).value ∉ Script.openers := by simp [Script.openers, *]
  have shorter' := (Script.argument c cs).le
  exact command_statement_reads here other go plain (argument_reads c cs _ (by omega))
    (arguments_reads _ _ (by omega))
termination_by 4 * cs.length + 6

theorem branch_reads (cs : List Char) (fuel : Nat) (enough : 8 * cs.length + 1 < fuel) :
    BranchReads text fuel cs := by
  have shorter := (Script.condition cs).le
  exact branch_step (condition_reads cs _ enough)
    (statements_reads [endWord, elseWord] (by decide) _ _ (by omega))
termination_by 4 * cs.length + 4

theorem elseClauses_reads (cs : List Char) (fuel : Nat) (enough : 8 * cs.length < fuel) :
    ClausesRead text fuel cs := by
  obtain ⟨fuel, rfl⟩ := Nat.exists_eq_add_of_lt enough
  refine clauses_step fun rest shorter => ?_
  have shorter' := (Script.elseClause rest).le
  exact ⟨elseClause_reads rest _ (by omega), elseClauses_reads _ _ (by omega)⟩
termination_by 4 * cs.length + 3

theorem elseClause_reads (cs : List Char) (fuel : Nat) (enough : 8 * cs.length + 2 < fuel) :
    ClauseReads text fuel cs := by
  obtain ⟨fuel, rfl⟩ := Nat.exists_eq_add_of_lt enough
  have shorter := length_dropWhile_le isBlank cs
  have shorter' := Script.length_word_le (cs.dropWhile isBlank)
  exact clause_step (branch_reads _ _ (by omega))
    (statements_reads [endWord] (by decide) cs _ (by omega))
termination_by 4 * cs.length + 5

theorem condition_reads (cs : List Char) (fuel : Nat) (enough : 8 * cs.length + 1 < fuel) :
    ConditionReads text fuel cs := by
  obtain ⟨fuel, rfl⟩ := Nat.exists_eq_add_of_lt enough
  have shorter := length_dropWhile_le isBlank cs
  exact condition_step (arguments_reads _ _ (by omega))
termination_by 4 * cs.length + 3

theorem arguments_reads (cs : List Char) (fuel : Nat) (enough : 8 * cs.length < fuel) :
    ArgumentsRead text fuel cs := by
  obtain ⟨fuel, rfl⟩ := Nat.exists_eq_add_of_lt enough
  refine arguments_step fun c tail next => ?_
  have shorter := length_lt_of_dropWhile next
  have shorter' := (Script.argument c tail).le
  exact ⟨argument_reads c tail _ (by omega), arguments_reads _ _ (by omega)⟩
termination_by 4 * cs.length + 2

theorem argument_reads (c : Char) (cs : List Char) (fuel : Nat)
    (enough : 8 * cs.length + 3 < fuel) : ArgumentReads text fuel c cs := by
  obtain ⟨fuel, rfl⟩ : ∃ less, fuel = less + 2 := ⟨fuel - 2, by omega⟩
  have shorter := (Script.piece c cs).le
  exact argument_step (piece_reads c cs _ (by omega)) (pieces_reads _ _ (by omega))
termination_by 4 * cs.length + 5

theorem pieces_reads (cs : List Char) (fuel : Nat) (enough : 8 * cs.length < fuel) :
    PiecesRead text fuel cs := by
  obtain ⟨fuel, rfl⟩ := Nat.exists_eq_add_of_lt enough
  refine pieces_step fun c tail split => ?_
  have size : cs.length = tail.length + 1 := by rw [split, List.length_cons]
  have shorter := (Script.piece c tail).le
  exact ⟨piece_reads c tail _ (by omega), pieces_reads _ _ (by omega)⟩
termination_by 4 * cs.length + 1

theorem piece_reads (c : Char) (cs : List Char) (fuel : Nat) (enough : 8 * cs.length + 1 < fuel) :
    PieceReads text fuel c cs := by
  obtain ⟨fuel, rfl⟩ := Nat.exists_eq_add_of_lt enough
  exact piece_step (by omega) (statements_reads [] (by decide) cs _ (by omega))
termination_by 4 * cs.length + 4

end

end FishNav.Cursor
