import FishNav.Proofs.Report
import FishNav.Proofs.Symbol.Listing
import FishNav.Proofs.Symbol.Shallow
import Mathlib.Data.List.Forall2
import Mathlib.Data.List.Perm.Basic

/-!
# Symbols of one kind

When symbols of one kind are asked for, the flattened outline is searched for them. Flat, they are
printed alone, and so each of them is printed once and nothing else is. If they are not to be flat
they are printed with all that is below them. Nothing is below a variable, but below a function
there may be variables, which were not asked for (`CommandLine.showsOnly_listed`), and other
functions, which are printed again (`CommandLine.showsOnce_listed`). All this holds if the symbols
can be printed at all (`CommandLine.Printable`); if not, the program stops and prints nothing.
-/
namespace FishNav

namespace Report

/-! ### What is printed over all depths -/

mutual

/-- A printed symbol and those printed below it. -/
def entries : Json → List Json
  | .obj members => .obj members :: entriesOfMembers members
  | _ => []

def entriesOfMembers : List (String × Json) → List Json
  | [] => []
  | (key, v) :: members =>
    (if key = "children" then entriesOfArray v else []) ++ entriesOfMembers members

def entriesOfArray : Json → List Json
  | .arr items => entriesOfAll items
  | _ => []

/-- The printed symbols of a list and those printed below them. -/
def entriesOfAll : List Json → List Json
  | [] => []
  | v :: vs => entries v ++ entriesOfAll vs

end

/-- A printed symbol without those below it. -/
def bare : Json → Json
  | .obj members => .obj (members.filter (·.1 != "children"))
  | v => v

def isOfKind (kind : SymbolKind) (v : Json) : Bool :=
  match v.get? "kind" with
  | some (.str name) => name == kind.name
  | _ => false

/-- All symbols that are printed, at every depth, are of a kind. -/
def ShowsOnly (kind : SymbolKind) (vs : List Json) : Prop :=
  ∀ v ∈ entriesOfAll vs, isOfKind kind v = true

/-- The symbols of a kind that are printed, over all depths, are the definitions of this kind, each
of them once. -/
def ShowsOnce (file : String) (kind : SymbolKind) (definitions : List Symbol) (vs : List Json) :
    Prop :=
  List.Perm (((entriesOfAll vs).filter (isOfKind kind)).map fun v => some (bare v))
    ((definitions.filter (·.kind == kind)).map fun s => symbol? file s.leaf)

section

variable {file : String} {kind : SymbolKind} {s : Symbol} {ss definitions : List Symbol} {v : Json}
  {vs : List Json}

/-- Symbols and what is printed of them, one by one. -/
abbrev Shown (file : String) : List Symbol → List Json → Prop :=
  List.Forall₂ fun s v => symbol? file s = some v

mutual

/-- The printed form of a symbol holds its flattened outline, entry by entry. -/
theorem shown_entries (s : Symbol) {v : Json} (printed : symbol? file s = some v) :
    Shown file (Symbol.flatten [s]) (entries v) := by
  cases s with
  | mk name kind range selection detail children =>
    obtain ⟨location, selected, below, -, -, inside, shape⟩ := exists_of_symbol? printed
    have deeper := shown_entriesOfAll children inside
    have own : entries v = v :: entriesOfAll below := by
      rw [shape]
      cases below <;> cases detail <;>
        simp [entries, entriesOfMembers, entriesOfArray, entriesOfAll]
    rw [Symbol.flatten_singleton, own]
    exact .cons printed deeper

/-- A forest is printed with all its symbols. -/
theorem shown_entriesOfAll (ss : List Symbol) {vs : List Json}
    (printed : symbols? file ss = some vs) : Shown file (Symbol.flatten ss) (entriesOfAll vs) := by
  cases ss with
  | nil =>
    obtain rfl : [] = vs := by simpa [symbols?] using printed
    rw [Symbol.flatten_nil, entriesOfAll]
    exact .nil
  | cons s ss =>
    obtain ⟨v, more, first, rest, rfl⟩ := symbols?_cons_eq_some_iff.mp printed
    rw [← List.singleton_append, Symbol.flatten_append, entriesOfAll]
    exact List.rel_append (shown_entries s first) (shown_entriesOfAll ss rest)

end

theorem bare_of_symbol? (printed : symbol? file s = some v) :
    some (bare v) = symbol? file s.leaf := by
  obtain ⟨location, selected, below, place, name, -, rfl⟩ := exists_of_symbol? printed
  have leaf : symbol? file s.leaf = some (.obj (
      (s.detail.map fun text => ("detail", .str text)).toList ++
      [("kind", .str s.kind.name), ("location", location), ("name", .str s.name),
        ("selection", selected)])) := by
    simp [Symbol.leaf, symbol?, symbols?, place, name]
  rw [leaf]
  cases below <;> cases s.detail <;> simp [bare]

theorem isOfKind_of_symbol? (printed : symbol? file s = some v) (kind : SymbolKind) :
    isOfKind kind v = (s.kind == kind) := by
  obtain ⟨location, selected, below, -, -, -, shape⟩ := exists_of_symbol? printed
  have member : v.get? "kind" = some (.str s.kind.name) := by
    rw [shape]
    cases below <;> cases s.detail <;> simp [Json.get?]
  rw [isOfKind, member]
  cases s.kind <;> cases kind <;> rfl

/-- The kinds that are printed are the kinds of the symbols. -/
theorem Shown.forall_iff (shown : Shown file ss vs) :
    (∀ v ∈ vs, isOfKind kind v = true) ↔ ∀ s ∈ ss, s.kind = kind := by
  induction shown with
  | nil => simp
  | cons first _ ih =>
    rw [List.forall_mem_cons, List.forall_mem_cons, isOfKind_of_symbol? first, beq_iff_eq, ih]

/-- Choosing printed symbols by kind is choosing symbols by kind. -/
theorem Shown.filter_eq (shown : Shown file ss vs) :
    ((vs.filter (isOfKind kind)).map fun v => some (bare v)) =
      (ss.filter (·.kind == kind)).map fun s => symbol? file s.leaf := by
  induction shown with
  | nil => rfl
  | cons first _ ih =>
    rw [List.filter_cons, List.filter_cons, isOfKind_of_symbol? first]
    split
    · rw [List.map_cons, List.map_cons, ih, bare_of_symbol? first]
    · exact ih

theorem showsOnly_iff (printed : symbols? file ss = some vs) :
    ShowsOnly kind vs ↔ ∀ s ∈ Symbol.flatten ss, s.kind = kind :=
  (shown_entriesOfAll ss printed).forall_iff

/-- What is printed of a kind, in terms of the symbols and not of their printed forms. -/
theorem showsOnce_iff (printed : symbols? file ss = some vs) :
    ShowsOnce file kind definitions vs ↔
      List.Perm (((Symbol.flatten ss).filter (·.kind == kind)).map fun s => symbol? file s.leaf)
        ((definitions.filter (·.kind == kind)).map fun s => symbol? file s.leaf) := by
  rw [ShowsOnce, (shown_entriesOfAll ss printed).filter_eq]

end

end Report

namespace CommandLine

open Report (ShowsOnly ShowsOnce)

/-! ### Symbols of a kind in an outline -/

section

variable {file : String} {kind : SymbolKind} {n : Node} {vs : List Json}

/-- A flat listing holds the symbols of the kind and nothing below them. -/
theorem listed_flat (outline : List Symbol) :
    Symbol.flatten (listed (some kind) true outline) =
      ((Symbol.flatten outline).filter (·.kind == kind)).map Symbol.leaf := by
  have kept : listed (some kind) true outline =
      ((Symbol.flatten outline).filter (·.kind == kind)).map Symbol.leaf := by simp [listed]
  rw [kept, Symbol.flatten_map_leaf]

/-- A listing that is not flat has each symbol of the kind with all that is below it, so a symbol of
the kind inside another one comes again. -/
theorem listed_nested (outline : List Symbol) :
    Symbol.flatten (listed (some kind) false outline) =
      ((Symbol.flatten outline).filter (·.kind == kind)).flatMap fun s =>
        s :: Symbol.flatten s.children := by
  have kept : listed (some kind) false outline =
      (Symbol.flatten outline).filter (·.kind == kind) := by simp [listed]
  rw [kept]
  exact Symbol.flatten_eq_flatMap _

/-- What holds below each symbol of a kind holds below each symbol if the kind is that of functions,
since nothing is below a variable; if the kind is that of variables it always holds. -/
theorem forall_below_iff {p : Symbol → Prop} :
    (∀ f ∈ (Symbol.flatten n.symbols).filter (·.kind == kind),
        ∀ s ∈ Symbol.flatten f.children, p s) ↔
      kind = .var ∨ ∀ f ∈ Symbol.flatten n.symbols, ∀ s ∈ Symbol.flatten f.children, p s := by
  have below : ∀ f ∈ Symbol.flatten n.symbols, ∀ s ∈ Symbol.flatten f.children,
      f.kind = .function := by
    intro f member s inside
    by_contra other
    have childless := Node.children_of_flatten_var member (by simpa [Symbol.isFunction] using other)
    rw [childless, Symbol.flatten_nil] at inside
    cases inside
  cases kind with
  | function =>
    constructor
    · intro each
      refine Or.inr fun f member s inside => each f ?_ s inside
      rw [List.mem_filter, below f member s inside]
      exact ⟨member, rfl⟩
    · rintro (absent | all) f member s inside
      · cases absent
      · exact all f (List.mem_of_mem_filter member) s inside
  | var =>
    refine ⟨fun _ => Or.inl rfl, fun _ f member s inside => ?_⟩
    rw [List.mem_filter] at member
    have function := below f member.1 s inside
    rw [function] at member
    cases member.2

/-- Only symbols of the kind are printed when they are flat, when they are variables, and when
nothing else is inside a function. -/
theorem showsOnly_listed (flat : Bool)
    (printed : Report.symbols? file (listed (some kind) flat n.symbols) = some vs) :
    ShowsOnly kind vs ↔
      flat = true ∨ kind = .var ∨
        ∀ f ∈ Symbol.flatten n.symbols, ∀ s ∈ Symbol.flatten f.children, s.kind = kind := by
  rw [Report.showsOnly_iff printed]
  cases flat with
  | true =>
    rw [listed_flat, List.forall_mem_map]
    simp [Symbol.leaf]
  | false =>
    rw [listed_nested, List.forall_mem_flatMap, ← forall_below_iff]
    simp only [List.forall_mem_cons, Bool.false_eq_true, false_or]
    apply forall₂_congr
    intro f member
    have own : f.kind = kind := by simpa using (List.mem_filter.mp member).2
    simp only [own, true_and]

/-- The symbols of a kind below symbols of the same kind, next to these. -/
theorem map_filter_nested {α : Type} (entry : Symbol → α) (ss : List Symbol) :
    (((ss.filter (·.kind == kind)).flatMap fun s => s :: Symbol.flatten s.children).filter
        (·.kind == kind)).map entry =
      (ss.filter (·.kind == kind)).flatMap fun s =>
        entry s :: ((Symbol.flatten s.children).filter (·.kind == kind)).map entry := by
  rw [List.filter_flatMap, List.map_flatMap]
  apply List.flatMap_congr
  intro s member
  have own := (List.mem_filter.mp member).2
  rw [List.filter_cons, if_pos own, List.map_cons]

/-- Each symbol of the kind is printed once when they are flat, when they are variables, and when no
function is inside a function. -/
theorem showsOnce_listed (flat : Bool)
    (printed : Report.symbols? file (listed (some kind) flat n.symbols) = some vs) :
    ShowsOnce file kind (Symbol.flatten n.symbols) vs ↔
      flat = true ∨ kind = .var ∨
        ∀ f ∈ Symbol.flatten n.symbols, ∀ s ∈ Symbol.flatten f.children, s.kind ≠ kind := by
  rw [Report.showsOnce_iff printed]
  cases flat with
  | true =>
    rw [listed_flat]
    generalize Symbol.flatten n.symbols = ss
    have again : ((ss.filter (·.kind == kind)).map Symbol.leaf).filter (·.kind == kind) =
        (ss.filter (·.kind == kind)).map Symbol.leaf := by
      rw [List.filter_eq_self, List.forall_mem_map]
      exact fun s member => (List.mem_filter.mp member).2
    rw [again, List.map_map]
    exact ⟨fun _ => Or.inl rfl, fun _ => List.Perm.refl _⟩
  | false =>
    rw [listed_nested, map_filter_nested, ← forall_below_iff]
    -- each symbol itself is printed once, so nothing of the kind may be left below any of them
    rw [← (List.map_append_flatMap_perm _ _ _).congr_left]
    nth_rewrite 2 [← List.append_nil (List.map _ _)]
    rw [List.perm_append_left_iff, List.perm_nil, List.flatMap_eq_nil_iff]
    simp only [List.map_eq_nil_iff, List.filter_eq_nil_iff, beq_iff_eq, Bool.false_eq_true,
      false_or, ne_eq]

end

/-! ### The command -/

/-- The symbols of a kind can be printed: no coordinate of them is the greatest word, nor, if they
are not flat, of any symbol below them. -/
def Printable (kind : SymbolKind) (flat : Bool) (definitions : List Symbol) : Prop :=
  ∀ s ∈ definitions, s.kind = kind →
    s.HasNext ∧ (flat = false → ∀ u ∈ Symbol.flatten s.children, u.HasNext)

instance (kind : SymbolKind) (flat : Bool) (definitions : List Symbol) :
    Decidable (Printable kind flat definitions) :=
  inferInstanceAs (Decidable (∀ s ∈ definitions, s.kind = kind →
    s.HasNext ∧ (flat = false → ∀ u ∈ Symbol.flatten s.children, u.HasNext)))

/-- The listing of a kind is printed exactly if the coordinates leave room for counting from one. -/
theorem exists_symbols?_listed (file : String) (kind : SymbolKind) (flat : Bool)
    (outline : List Symbol) :
    (∃ vs, Report.symbols? file (listed (some kind) flat outline) = some vs) ↔
      Printable kind flat (Symbol.flatten outline) := by
  rw [Report.exists_symbols?_iff, Printable]
  cases flat with
  | true =>
    rw [listed_flat, List.forall_mem_map]
    simp only [List.mem_filter, beq_iff_eq, and_imp, Bool.true_eq_false, false_implies, and_true]
    exact Iff.rfl
  | false =>
    rw [listed_nested, List.forall_mem_flatMap]
    simp only [List.mem_filter, beq_iff_eq, and_imp, List.forall_mem_cons, forall_const]

/-- Asked for the symbols of one kind, the program prints a list of symbols if they can be printed,
and stops at an overflow if not. Over all depths, all of those that are printed are of this kind
just when they are flat, when they are variables, or when there are only functions inside functions;
and each definition of this kind is printed once just when they are flat, when they are variables,
or when there are no functions inside functions. -/
theorem symbols_of_kind (cwd : String) (env : Environment) (args : List String) (pretty : Bool)
    (path : String) (path? : Option String) (kind : SymbolKind) (flat : Bool) (d : Disk)
    (text : String) (t : Tree)
    (parsed : parse args = .ok ⟨pretty, .symbols path path? (some kind) flat⟩)
    (there : d.read path = .ok text) (loaded : Tree.ofJson text = .ok t) :
    (¬ Printable kind flat t.definitions → (run cwd env args).run d = (stopped, d)) ∧
    (Printable kind flat t.definitions →
      ∃ pretty' vs, (run cwd env args).run d = (shown pretty' vs, d) ∧
        (ShowsOnly kind vs ↔ flat = true ∨ kind = .var ∨
          ∀ f ∈ t.definitions, ∀ s ∈ Symbol.flatten f.children, s.kind = kind) ∧
        (ShowsOnce (Path.relativeTo cwd (Path.join cwd (path?.getD path))) kind t.definitions vs ↔
          flat = true ∨ kind = .var ∨
            ∀ f ∈ t.definitions, ∀ s ∈ Symbol.flatten f.children, s.kind ≠ kind)) := by
  obtain ⟨root, top, -⟩ := Tree.isWord_of_ofJson loaded
  obtain ⟨pretty', outcome⟩ := run_symbols cwd env parsed there loaded top
  rw [← Tree.flatten_eq_definitions top, ← exists_symbols?_listed]
  constructor
  · intro unprintable
    rw [outcome, Option.eq_none_iff_forall_ne_some.mpr (not_exists.mp unprintable)]
    rfl
  · rintro ⟨vs, printed⟩
    refine ⟨pretty', vs, ?_, showsOnly_listed flat printed, showsOnce_listed flat printed⟩
    rw [outcome, printed]
    rfl

/-- A function with a variable inside it. -/
def variableDump : String :=
  "[\"f set x\",[\"program\",true,0,7,[0,0],[0,7],[" ++
  "[\"function_definition\",true,0,7,[0,0],[0,7],[[\"word\",true,0,1,[0,0],[0,1]]," ++
  "[\"command\",true,2,7,[0,2],[0,7],[[\"word\",true,2,5,[0,2],[0,5]]," ++
  "[\"word\",true,6,7,[0,6],[0,7]]]]]]]]]"

def variableDisk : Disk := ⟨[(["tree.json"], variableDump)], [], "/"⟩

theorem read_variableDisk : variableDisk.read "tree.json" = .ok variableDump :=
  eq_ok_of_toOption (by decide +kernel)

theorem ofJson_variableDump :
    ∃ t, Tree.ofJson variableDump = .ok t ∧ (∀ flat, Printable .function flat t.definitions) ∧
      ∃ f ∈ t.definitions, ∃ s ∈ Symbol.flatten f.children, s.kind = .var := by
  have accepted : (Tree.ofJson variableDump).toOption.any (fun t =>
      decide (∀ flat, Printable .function flat t.definitions) && t.definitions.any fun f =>
        (Symbol.flatten f.children).any (·.kind == .var)) = true := by decide +kernel
  obtain ⟨t, loaded, inside⟩ := exists_ok_of_any accepted
  simp only [Bool.and_eq_true, decide_eq_true_eq, List.any_eq_true, beq_iff_eq] at inside
  exact ⟨t, loaded, inside⟩

/-- Flat, the function is printed and the variable inside it is not. -/
theorem symbols_of_kind_flat :
    ∃ t pretty vs, Tree.ofJson variableDump = .ok t ∧
      (∃ f ∈ t.definitions, ∃ s ∈ Symbol.flatten f.children, s.kind = .var) ∧
      (run "/" ⟨[], none⟩ ["symbols", "tree.json", "--kind", "function", "--flat"]).run
        variableDisk = (shown pretty vs, variableDisk) ∧
      ShowsOnly .function vs ∧ ShowsOnce "tree.json" .function t.definitions vs := by
  obtain ⟨t, loaded, printable, inside⟩ := ofJson_variableDump
  obtain ⟨pretty, vs, printed, only, once⟩ := (symbols_of_kind "/" ⟨[], none⟩
    ["symbols", "tree.json", "--kind", "function", "--flat"] false "tree.json" none .function true
    variableDisk variableDump t rfl read_variableDisk loaded).2 (printable true)
  have file : Path.relativeTo "/" (Path.join "/" "tree.json") = "tree.json" := by decide +kernel
  rw [Option.getD_none, file] at once
  exact ⟨t, pretty, vs, loaded, inside, printed, only.mpr (Or.inl rfl), once.mpr (Or.inl rfl)⟩

/-- Not flat, the variable is printed too, although functions were asked for. -/
theorem prints_other_kind :
    ∃ t pretty vs, Tree.ofJson variableDump = .ok t ∧
      (run "/" ⟨[], none⟩ ["symbols", "tree.json", "--kind", "function"]).run variableDisk =
        (shown pretty vs, variableDisk) ∧
      ¬ ShowsOnly .function vs := by
  obtain ⟨t, loaded, printable, f, member, s, below, kind⟩ := ofJson_variableDump
  have parsed : parse ["symbols", "tree.json", "--kind", "function"] =
      .ok ⟨false, .symbols "tree.json" none (some .function) false⟩ := rfl
  obtain ⟨root, top, -⟩ := Tree.isWord_of_ofJson loaded
  obtain ⟨pretty, outcome⟩ := run_symbols "/" ⟨[], none⟩ parsed read_variableDisk loaded top
  rw [← Tree.flatten_eq_definitions top] at member printable
  obtain ⟨vs, printed⟩ := (exists_symbols?_listed _ _ _ _).mpr (printable false)
  refine ⟨t, pretty, vs, loaded, by rw [outcome, printed]; rfl, ?_⟩
  intro only
  rcases (showsOnly_listed false printed).mp only with flat | other | functions
  · cases flat
  · cases other
  · simp [functions f member s below] at kind

end CommandLine

end FishNav
