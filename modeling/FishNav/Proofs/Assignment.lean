import FishNav.Proofs.Role
import FishNav.Proofs.Tree.Enumeration

/-!
# Variables that commands set

`set` sets the first of its arguments that is no option, unless an option before it asks for
something else (`setTarget?_eq_some_iff`). For `read` think of one pass over the arguments: an option
that takes a value consumes the next argument, which is then neither a variable nor an option with a
value of its own (`consumedBehind`). Each argument is looked at by a scan of its own, which stops at
it; up to there it goes through the states of that pass (`isReadTarget_cons_of_ne`), so all scans
together find what the pass leaves over (`isReadTarget_iff`). In a tree that was built these are the
only children of a command that bring in a variable (`definitions_of_command`).
-/
namespace FishNav

namespace Node

variable {a b c : Node} {args front : List Node}

/-! ### The argument that is set -/

/-- `a` is the first argument of `set` that is no option, and the options before it let it be
set. -/
def Sets (args : List Node) (a : Node) : Prop :=
  ∃ front back, args = front ++ a :: back ∧ a.isOption = false ∧
    ∀ b ∈ front, b.isOption = true ∧ b.text ∉ queryOptions

/-- The search for the target of `set` finds what the arguments say, and nothing else. -/
theorem setTarget?_eq_some_iff : setTarget? args = some a ↔ Sets args a := by
  fun_induction setTarget? args with
  | case1 => simp [Sets]
  | case2 b rest option query =>
    constructor
    · intro target
      cases target
    · rintro ⟨_ | ⟨_, front⟩, back, split, positional, options⟩
      · obtain ⟨rfl, -⟩ := List.cons.inj split
        cases option.symm.trans positional
      · obtain ⟨rfl, -⟩ := List.cons.inj split
        exact absurd (List.contains_iff_mem.mp query) (options b List.mem_cons_self).2
  | case3 b rest option other ih =>
    rw [ih]
    constructor
    · rintro ⟨front, back, rfl, positional, options⟩
      refine ⟨b :: front, back, rfl, positional, List.forall_mem_cons.mpr ⟨⟨option, ?_⟩, options⟩⟩
      exact fun query => other (List.contains_iff_mem.mpr query)
    · rintro ⟨_ | ⟨_, front⟩, back, split, positional, options⟩
      · obtain ⟨rfl, -⟩ := List.cons.inj split
        cases option.symm.trans positional
      · obtain ⟨rfl, rfl⟩ := List.cons.inj split
        exact ⟨front, back, rfl, positional, (List.forall_mem_cons.mp options).2⟩
  | case4 b rest positional =>
    constructor
    · rintro ⟨⟩
      exact ⟨[], rest, rfl, Bool.eq_false_iff.mpr positional, List.forall_mem_nil _⟩
    · rintro ⟨_ | ⟨_, front⟩, back, split, -, options⟩
      · obtain ⟨rfl, -⟩ := List.cons.inj split
        rfl
      · obtain ⟨rfl, -⟩ := List.cons.inj split
        exact absurd (options b List.mem_cons_self).1 positional

/-! ### The arguments that are read into -/

/-- One step of the pass over the arguments of `read`: whether the argument behind `a` is consumed
as its value. An argument that is consumed takes no value. -/
def consumesNext (consumed : Bool) (a : Node) : Bool := !consumed && valueOptions.contains a.text

/-- Whether the argument behind `front` is consumed as the value of an option. -/
def consumedBehind (front : List Node) : Bool := front.foldl consumesNext false

/-- `a` is an argument of `read` that is neither an option nor consumed by one. -/
def ReadsInto (args : List Node) (a : Node) : Prop :=
  ∃ front back, args = front ++ a :: back ∧ a.isOption = false ∧ consumedBehind front = false

/-- An option that takes a value is an option itself, so the scan never takes it for a target. -/
theorem isOption_of_valueOption (value : valueOptions.contains a.text = true) :
    a.isOption = true := by
  have dashes : ∀ word ∈ valueOptions, (word.toList.head? == some '-') = true := by decide
  exact dashes a.text (List.contains_iff_mem.mp value)

/-- The scan for `a` answers when it comes to `a`. -/
theorem isReadTarget_cons_self {skip : Bool} (same : b.same a = true) :
    isReadTarget a skip (b :: args) = (!skip && !b.isOption) := by
  cases skip <;> cases option : b.isOption <;> simp [isReadTarget, same, option]

/-- Before that it takes the step of the pass. -/
theorem isReadTarget_cons_of_ne {skip : Bool} (other : b.same a = false) :
    isReadTarget a skip (b :: args) = isReadTarget a (consumesNext skip b) args := by
  cases skip with
  | true => simp [isReadTarget, other, consumesNext]
  | false =>
    cases option : b.isOption with
    | true => simp [isReadTarget, other, option, consumesNext]
    | false =>
      have plain : valueOptions.contains b.text = false := by
        refine Bool.eq_false_iff.mpr fun value => ?_
        cases option.symm.trans (isOption_of_valueOption value)
      rw [isReadTarget, if_neg Bool.false_ne_true, if_neg (by simp [option]),
        if_neg (by simp [other]), consumesNext, plain, Bool.and_false]

/-- Where nodes are told apart by their numbers, the scan for `a` finds out what the pass makes of
`a`, from any state on. -/
theorem isReadTarget_iff {skip : Bool} (distinct : args.Nodup)
    (only : ∀ b ∈ args, b.same a = true → b = a) :
    isReadTarget a skip args = true ↔
      ∃ front back, args = front ++ a :: back ∧ a.isOption = false ∧
        front.foldl consumesNext skip = false := by
  induction args generalizing skip with
  | nil => simp [isReadTarget]
  | cons b rest ih =>
    obtain ⟨new, distinct⟩ := List.nodup_cons.mp distinct
    obtain ⟨here, only⟩ := List.forall_mem_cons.mp only
    cases same : b.same a with
    | true =>
      obtain rfl := here same
      rw [isReadTarget_cons_self same, Bool.and_eq_true, Bool.not_eq_true', Bool.not_eq_true']
      constructor
      · rintro ⟨free, positional⟩
        exact ⟨[], rest, rfl, positional, free⟩
      · rintro ⟨_ | ⟨_, front⟩, back, split, positional, free⟩
        · exact ⟨free, positional⟩
        · obtain ⟨-, rfl⟩ := List.cons.inj split
          exact absurd (List.mem_append_right front List.mem_cons_self) new
    | false =>
      rw [isReadTarget_cons_of_ne same, ih distinct only]
      constructor
      · rintro ⟨front, back, rfl, positional, free⟩
        exact ⟨b :: front, back, rfl, positional, free⟩
      · rintro ⟨_ | ⟨_, front⟩, back, split, positional, free⟩
        · obtain ⟨rfl, -⟩ := List.cons.inj split
          exact absurd (beq_self_eq_true b.id) (Bool.eq_false_iff.mp same)
        · obtain ⟨rfl, rfl⟩ := List.cons.inj split
          exact ⟨front, back, rfl, positional, free⟩

/-! ### Children of commands -/

/-- `command` sets `a`, as the name of the command says. -/
def Assigns (command a : Node) : Prop :=
  ∃ name args, command.namedChildren = name :: args ∧
    (name.text = "set" ∧ Sets args a ∨ name.text = "read" ∧ ReadsInto args a)

/-- What a command sets, told from its name and the arguments behind it. -/
theorem assigns_iff {command name : Node} (all : command.namedChildren = name :: args) :
    Assigns command a ↔
      (name.text = "set" ∧ Sets args a ∨ name.text = "read" ∧ ReadsInto args a) := by
  constructor
  · rintro ⟨name', args', all', assigns⟩
    obtain ⟨rfl, rfl⟩ := List.cons.inj (all.symm.trans all')
    exact assigns
  · exact fun assigns => ⟨name, args, all, assigns⟩

theorem Assigns.mem_tail {command : Node} (assigns : Assigns command a) :
    a ∈ command.namedChildren.tail := by
  obtain ⟨name, args, all, ⟨-, front, back, rfl, -⟩ | ⟨-, front, back, rfl, -⟩⟩ := assigns
  · simp [all]
  · simp [all]

/-- The name of a command is not set by it; of the other named children those are that the pass over
the arguments marks. -/
theorem isSetBy_iff {command : Node} (distinct : command.namedChildren.Nodup)
    (only : ∀ b ∈ command.namedChildren, b.same a = true → b = a) :
    a.isSetBy command = true ↔ Assigns command a := by
  cases all : command.namedChildren with
  | nil => simp [isSetBy, Assigns, all]
  | cons name args =>
    rw [all] at distinct only
    obtain ⟨new, distinct⟩ := List.nodup_cons.mp distinct
    obtain ⟨here, only⟩ := List.forall_mem_cons.mp only
    simp only [isSetBy, all]
    by_cases same : name.same a = true
    · obtain rfl := here same
      rw [if_pos same]
      refine iff_of_false Bool.false_ne_true fun assigns => new ?_
      simpa [all] using assigns.mem_tail
    rw [if_neg same, assigns_iff all]
    by_cases set : name.text = "set"
    · have target : (setTarget? args).any (·.same a) = true ↔ setTarget? args = some a := by
        rw [Option.any_eq_true]
        constructor
        · rintro ⟨b, found, same⟩
          rw [found, only b (mem_of_setTarget? found) same]
        · exact fun found => ⟨a, found, beq_self_eq_true a.id⟩
      simp [set, target, setTarget?_eq_some_iff]
    · by_cases read : name.text = "read"
      · simp [read, isReadTarget_iff distinct only, ReadsInto, consumedBehind]
      · simp [set, read]

/-- A child of a command brings in a variable if it is a word that the command sets. -/
theorem isVariableDefinition_of_command {command n : Node} (kind : command.kind = .command)
    (step : n ∈ command.children) :
    n.isVariableDefinition = true ↔
      n.kind = .word ∧ n.isSetBy command = true := by
  unfold isVariableDefinition
  rw [parent?_of_mem_children step]
  dsimp only
  rw [kind]
  split
  · next other => cases other
  · next word _ => simp [word]
  · next other => cases other
  · next other _ =>
    constructor
    · intro absurd
      cases absurd
    · rintro ⟨word, -⟩
      exact (other word rfl).elim

end Node

namespace Tree

variable {t : Tree} {command n : Node}

/-- In a tree numbers tell nodes apart, so the scan for a node of a command finds that node. -/
theorem Linked.isSetBy_iff (linked : t.Linked) (member : command ∈ t.nodes)
    (step : n ∈ command.children) : n.isSetBy command = true ↔ Node.Assigns command n := by
  obtain ⟨r, root, way⟩ := mem_nodes_iff.mp member
  refine Node.isSetBy_iff (command.pairwise_children.filter _) fun m named same => ?_
  have step' : m ∈ command.children := (List.mem_filter.mp named).1
  exact linked.eq_of_id root (way.down step') (way.down step) (beq_iff_eq.mp same)

/-- The children of a command that bring in a variable are the words that it sets. `set` sets one
at most. -/
theorem definitions_of_command (source : String) (steps : List Builder.Step) (t : Tree)
    (_finished : (Builder.run source steps).finish = .ok t) (command : Node)
    (member : command ∈ t.nodes) (kind : command.kind = .command) :
    (∀ n ∈ command.children,
        n.isVariableDefinition = true ↔ n.kind = .word ∧ Node.Assigns command n) ∧
      ∀ name args, command.namedChildren = name :: args → name.text = "set" →
        ∀ m ∈ command.children, ∀ n ∈ command.children,
          m.isVariableDefinition = true → n.isVariableDefinition = true → m = n := by
  have linked := t.linked
  have assigns : ∀ n ∈ command.children,
      n.isVariableDefinition = true ↔ n.kind = .word ∧ Node.Assigns command n := by
    intro n step
    rw [Node.isVariableDefinition_of_command kind step, linked.isSetBy_iff member step]
  refine ⟨assigns, ?_⟩
  intro name args all set m stepM n stepN first second
  have target : ∀ {n}, Node.Assigns command n → Node.setTarget? args = some n := by
    rintro n ⟨name', args', all', ⟨-, sets⟩ | ⟨read, -⟩⟩
    · obtain ⟨rfl, rfl⟩ := List.cons.inj (all.symm.trans all')
      exact Node.setTarget?_eq_some_iff.mpr sets
    · obtain ⟨rfl, rfl⟩ := List.cons.inj (all.symm.trans all')
      exact absurd (set.symm.trans read) (by decide)
  have left := target ((assigns m stepM).mp first).2
  have right := target ((assigns n stepN).mp second).2
  exact Option.some.inj (left.symm.trans right)

/-- A command that reads into `x`; the value of its first option looks like an option that takes a
value too. -/
def readSteps : List Builder.Step :=
  let mark (byte : Nat) : Mark := ⟨byte, ⟨0, byte⟩⟩
  [.push none .program ⟨mark 0, mark 12⟩,
    .push (some 0) .command ⟨mark 0, mark 12⟩,
    .push (some 1) .word ⟨mark 0, mark 4⟩,
    .push (some 1) .word ⟨mark 5, mark 7⟩,
    .push (some 1) .word ⟨mark 8, mark 10⟩,
    .push (some 1) .word ⟨mark 11, mark 12⟩]

/-- The value of `-d` looks like an option with a value; the node behind it is set all the same. -/
theorem definitions_of_read :
    ∃ t command n, (Builder.run "read -d -p x" readSteps).finish = .ok t ∧ command ∈ t.nodes ∧
      command.kind = .command ∧ n ∈ command.children ∧ n.text = "x" ∧
      n.isVariableDefinition = true ∧ Node.Assigns command n := by
  have built : (Builder.run "read -d -p x" readSteps).finish.toOption.any (fun t =>
      t.nodes.any fun command => command.kind == .command &&
        command.children.any fun n => n.text == "x" && n.isVariableDefinition) = true := by
    decide +kernel
  obtain ⟨t, finished, holds⟩ := exists_ok_of_any built
  simp only [List.any_eq_true, Bool.and_eq_true, beq_iff_eq] at holds
  obtain ⟨command, member, kind, n, step, text, definition⟩ := holds
  have children := (definitions_of_command _ _ t finished command member kind).1
  exact ⟨t, command, n, finished, member, kind, step, text, definition,
    ((children n step).mp definition).2⟩

end Tree

end FishNav
