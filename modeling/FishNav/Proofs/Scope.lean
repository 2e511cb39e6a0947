import FishNav.Proofs.Symbol.Outline
import FishNav.Scope
import Mathlib.Data.List.Induction

/-!
# What is offered at a range

A symbol that is put in the place of the one with its name keeps the names in the order in which
they first came up (`map_name_replace`) and is the one found under its name from then on
(`first?_replace`). The slots that are kept by name stay in step with the symbols
(`Recent.inStep_add`), so going over a list puts each symbol in that place
(`mostRecent_eq_latest`). After a whole list there is for each name the last symbol of that name,
in the order of the first ones (`mostRecent_last`).

What may be meant at a range are these latest symbols of the function around it, and behind them
the functions of the document whose names are still free. Nothing is lost and no name comes twice
(`nearby_names`).
-/
namespace FishNav.Scope

/-! ### The latest symbol of each name -/

/-- The symbols that start on a line before `range`. -/
def earlier (symbols : List Symbol) (range : Range) : List Symbol :=
  symbols.filter fun s => s.range.start.line < range.start.line

def first? (ss : List Symbol) (name : String) : Option Symbol := ss.find? fun s => s.name == name

def last? (ss : List Symbol) (name : String) : Option Symbol :=
  (ss.filter fun s => s.name == name).getLast?

/-- Puts a symbol in the place of the one with its name, or behind all others. -/
def replace (s : Symbol) : List Symbol → List Symbol
  | [] => [s]
  | t :: ts => if t.name = s.name then s :: ts else t :: replace s ts

/-- Puts each symbol in the place of the one with its name, one symbol after the other. -/
def latest (ss : List Symbol) : List Symbol := ss.foldl (fun seen s => replace s seen) []

theorem latest_snoc (ss : List Symbol) (s : Symbol) :
    latest (ss ++ [s]) = replace s (latest ss) := by
  unfold latest
  rw [List.foldl_append, List.foldl_cons, List.foldl_nil]

theorem first?_cons (s : Symbol) (ss : List Symbol) (name : String) :
    first? (s :: ss) name = if s.name = name then some s else first? ss name := by
  unfold first?
  by_cases same : s.name = name
  · rw [if_pos same, List.find?_cons_of_pos (by simpa using same)]
  · rw [if_neg same, List.find?_cons_of_neg (by simpa using same)]

theorem last?_snoc (ss : List Symbol) (s : Symbol) (name : String) :
    last? (ss ++ [s]) name = if s.name = name then some s else last? ss name := by
  unfold last?
  rw [List.filter_append]
  by_cases same : s.name = name
  · rw [if_pos same, List.filter_cons_of_pos (by simpa using same), List.filter_nil,
      List.getLast?_concat]
  · rw [if_neg same, List.filter_cons_of_neg (by simpa using same), List.filter_nil,
      List.append_nil]

/-- Where no name comes twice, a symbol is the one found under its name. -/
theorem first?_of_mem {ss : List Symbol} {s : Symbol} (distinct : (ss.map Symbol.name).Nodup)
    (member : s ∈ ss) : first? ss s.name = some s := by
  induction ss with
  | nil => cases member
  | cons t ts ih =>
    rw [List.map_cons, List.nodup_cons] at distinct
    rw [first?_cons]
    rcases List.mem_cons.mp member with rfl | later
    · rw [if_pos rfl]
    · have other : t.name ≠ s.name := by
        intro same
        exact distinct.1 (List.mem_map.mpr ⟨s, later, same.symm⟩)
      rw [if_neg other, ih distinct.2 later]

/-! What one symbol does. -/

theorem replace_of_new {s : Symbol} {ss : List Symbol} (new : s.name ∉ ss.map Symbol.name) :
    replace s ss = ss ++ [s] := by
  induction ss with
  | nil => rfl
  | cons t ts ih =>
    rw [List.map_cons, List.mem_cons, not_or] at new
    rw [replace, if_neg (Ne.symm new.1), ih new.2, List.cons_append]

/-- A symbol with a known name takes the place of the old one, so no name moves. -/
theorem map_name_replace {s : Symbol} {ss : List Symbol} (known : s.name ∈ ss.map Symbol.name) :
    (replace s ss).map Symbol.name = ss.map Symbol.name := by
  induction ss with
  | nil => cases known
  | cons t ts ih =>
    unfold replace
    split
    · next same => rw [List.map_cons, List.map_cons, same]
    · next other =>
      rw [List.map_cons, List.mem_cons] at known
      rw [List.map_cons, List.map_cons, ih (known.resolve_left (Ne.symm other))]

/-- After a replacement its name finds the new symbol, and every other name what it found before. -/
theorem first?_replace (s : Symbol) (ss : List Symbol) (name : String) :
    first? (replace s ss) name = if s.name = name then some s else first? ss name := by
  induction ss with
  | nil => rw [replace, first?_cons]
  | cons t ts ih =>
    unfold replace
    split
    · next same => rw [first?_cons, first?_cons, same]; split <;> rfl
    · next other =>
      rw [first?_cons, ih, first?_cons]
      by_cases found : t.name = name
      · rw [if_pos found, if_pos found, if_neg fun again => other (found.trans again.symm)]
      · rw [if_neg found, if_neg found]

theorem mem_of_mem_replace {s t : Symbol} {ss : List Symbol} (member : t ∈ replace s ss) :
    t = s ∨ t ∈ ss := by
  induction ss with
  | nil => exact Or.inl (List.mem_singleton.mp member)
  | cons u us ih =>
    unfold replace at member
    split at member
    · exact (List.mem_cons.mp member).imp_right (List.mem_cons_of_mem u)
    · rcases List.mem_cons.mp member with rfl | later
      · exact Or.inr List.mem_cons_self
      · exact (ih later).imp_right (List.mem_cons_of_mem u)

/-- The place of a name is that of its first symbol. -/
theorem replace_eq_set {s : Symbol} {ss : List Symbol} {slot : Nat}
    (known : (ss.map Symbol.name).idxOf? s.name = some slot) : replace s ss = ss.set slot s := by
  induction ss generalizing slot with
  | nil => cases known
  | cons t ts ih =>
    rw [List.map_cons, List.idxOf?_cons] at known
    unfold replace
    by_cases same : t.name = s.name
    · rw [if_pos (by simpa using same)] at known
      obtain rfl := Option.some.inj known
      rw [if_pos same, List.set_cons_zero]
    · rw [if_neg (by simpa using same)] at known
      obtain ⟨earlier, found, rfl⟩ := Option.map_eq_some_iff.mp known
      rw [if_neg same, ih found, List.set_cons_succ]

/-! ### Slots by name -/

namespace Recent

/-- The slots say where the names of the symbols first come up. -/
def InStep (recent : Recent) : Prop :=
  ∀ name, recent.slots.lookup name = (recent.symbols.map Symbol.name).idxOf? name

variable {recent : Recent}

/-- With slots in step, one step of the loop replaces the symbol of the name. -/
theorem symbols_add (inStep : recent.InStep) (s : Symbol) :
    (recent.add s).symbols = replace s recent.symbols := by
  have slots := inStep s.name
  unfold add
  split
  · next slot found => rw [replace_eq_set (slots.symm.trans found)]
  · next missing =>
    rw [missing, eq_comm, List.idxOf?_eq_none_iff] at slots
    rw [replace_of_new slots]

/-- A symbol whose name is known changes no name, and one with a new name comes last. -/
theorem inStep_add (inStep : recent.InStep) (s : Symbol) : (recent.add s).InStep := by
  have slots := inStep s.name
  have symbols := symbols_add inStep s
  intro name
  rw [symbols]
  cases found : recent.slots.lookup s.name with
  | some slot =>
    have known : s.name ∈ recent.symbols.map Symbol.name := by
      rw [← List.isSome_idxOf?, ← slots, found]
      rfl
    rw [map_name_replace known, ← inStep name, add, found]
  | none =>
    have new : s.name ∉ recent.symbols.map Symbol.name := by
      rwa [found, eq_comm, List.idxOf?_eq_none_iff] at slots
    have more : (recent.add s).slots = (s.name, recent.symbols.length) :: recent.slots := by
      rw [add, found]
    rw [more, replace_of_new new, List.map_append, List.map_singleton, List.idxOf?,
      List.findIdx?_append]
    by_cases same : s.name = name
    · have first : List.findIdx? (· == name) (recent.symbols.map Symbol.name) = none :=
        List.idxOf?_eq_none_iff.mpr (same ▸ new)
      rw [first, same, List.lookup_cons_self]
      simp
    · have kept : recent.slots.lookup name =
          List.findIdx? (· == name) (recent.symbols.map Symbol.name) := inStep name
      rw [List.lookup_cons, beq_eq_false_iff_ne.mpr (Ne.symm same), ← kept]
      simp [same]

end Recent

/-- The loop over the symbols, from any state that is in step. -/
theorem symbols_foldl (symbols : List Symbol) (range : Range) {recent : Recent}
    (inStep : recent.InStep) :
    (symbols.foldl (fun recent s =>
        if range.start.line ≤ s.range.start.line then recent else recent.add s) recent).symbols =
      (earlier symbols range).foldl (fun seen s => replace s seen) recent.symbols := by
  induction symbols generalizing recent with
  | nil => rfl
  | cons s ss ih =>
    unfold earlier at ih ⊢
    rw [List.foldl_cons]
    by_cases late : range.start.line ≤ s.range.start.line
    · rw [if_pos late, ih inStep, List.filter_cons_of_neg (by simpa using late)]
    · rw [if_neg late, ih (Recent.inStep_add inStep s), Recent.symbols_add inStep s,
        List.filter_cons_of_pos (by simpa using late), List.foldl_cons]

/-- The loop with slots gives what replacing symbols in the list itself would give. -/
theorem mostRecent_eq_latest (symbols : List Symbol) (range : Range) :
    mostRecent symbols range = latest (earlier symbols range) :=
  symbols_foldl symbols range fun _ => rfl

/-! ### The latest symbols of a list -/

/-- Names keep the order in which they first come up. -/
theorem map_name_latest (ss : List Symbol) :
    (latest ss).map Symbol.name = (ss.map Symbol.name).eraseDups := by
  induction ss using List.reverseRecOn with
  | nil => rfl
  | append_singleton ss s ih =>
    rw [latest_snoc, List.map_append, List.map_singleton, List.eraseDups_append]
    by_cases known : s.name ∈ ss.map Symbol.name
    · have nothing : [s.name].removeAll (ss.map Symbol.name) = [] := by
        rw [List.removeAll, List.filter_cons_of_neg (by simpa using known), List.filter_nil]
      rw [map_name_replace (by rwa [ih, List.mem_eraseDups]), ih, nothing, List.eraseDups_nil,
        List.append_nil]
    · have one : [s.name].removeAll (ss.map Symbol.name) = [s.name] := by
        rw [List.removeAll, List.filter_cons_of_pos (by simpa using known), List.filter_nil]
      rw [replace_of_new (by rwa [ih, List.mem_eraseDups]), List.map_append, ih, one,
        List.eraseDups_cons, List.filter_nil, List.eraseDups_nil, List.map_singleton]

theorem nodup_latest (ss : List Symbol) : ((latest ss).map Symbol.name).Nodup := by
  induction ss using List.reverseRecOn with
  | nil => exact List.nodup_nil
  | append_singleton ss s ih =>
    rw [latest_snoc]
    by_cases known : s.name ∈ (latest ss).map Symbol.name
    · rwa [map_name_replace known]
    · rw [replace_of_new known, List.map_append, List.map_singleton, ← List.concat_eq_append]
      exact ih.concat known

/-- For each name the last symbol wins. -/
theorem first?_latest (ss : List Symbol) (name : String) :
    first? (latest ss) name = last? ss name := by
  induction ss using List.reverseRecOn with
  | nil => rfl
  | append_singleton ss s ih => rw [latest_snoc, first?_replace, last?_snoc, ih]

theorem mem_of_mem_latest {ss : List Symbol} {s : Symbol} (member : s ∈ latest ss) : s ∈ ss := by
  induction ss using List.reverseRecOn with
  | nil => cases member
  | append_singleton ss t ih =>
    rw [latest_snoc] at member
    rw [List.mem_append, List.mem_singleton]
    exact (mem_of_mem_replace member).symm.imp_left ih

theorem latest_of_nodup {ss : List Symbol} (distinct : (ss.map Symbol.name).Nodup) :
    latest ss = ss := by
  induction ss using List.reverseRecOn with
  | nil => rfl
  | append_singleton ss s ih =>
    rw [List.map_append, List.map_singleton, List.nodup_append] at distinct
    have new : s.name ∉ ss.map Symbol.name := fun known =>
      distinct.2.2 s.name known s.name List.mem_cons_self rfl
    rw [latest_snoc, ih distinct.1, replace_of_new new]

/-- The latest symbols are the last ones of their names. -/
theorem mem_latest_iff {ss : List Symbol} {s : Symbol} :
    s ∈ latest ss ↔ last? ss s.name = some s := by
  rw [← first?_latest]
  constructor
  · intro member
    exact first?_of_mem (nodup_latest ss) member
  · intro found
    exact List.mem_of_find?_eq_some found

/-- Of the symbols on earlier lines there is, for each name in the order in which the names first
come up, the last one; so no name comes twice, and doing the same again changes nothing. -/
theorem mostRecent_last (symbols : List Symbol) (range : Range) :
    (mostRecent symbols range).map some =
        ((earlier symbols range).map Symbol.name).eraseDups.map
          (last? (earlier symbols range)) ∧
      ((mostRecent symbols range).map Symbol.name).Nodup ∧
      mostRecent (mostRecent symbols range) range = mostRecent symbols range := by
  rw [mostRecent_eq_latest]
  have distinct := nodup_latest (earlier symbols range)
  refine ⟨?_, distinct, ?_⟩
  · rw [← map_name_latest, List.map_map]
    apply List.map_congr_left
    intro s member
    exact (mem_latest_iff.mp member).symm
  · have kept : earlier (latest (earlier symbols range)) range =
        latest (earlier symbols range) := by
      apply List.filter_eq_self.mpr
      intro s member
      exact (List.mem_filter.mp (mem_of_mem_latest member)).2
    rw [mostRecent_eq_latest, kept, latest_of_nodup distinct]

/-! ### The first symbol of each name -/

theorem firstOfEachName_sublist (seen : List String) (ss : List Symbol) :
    (firstOfEachName seen ss).Sublist ss := by
  induction ss generalizing seen with
  | nil => exact List.Sublist.refl _
  | cons s ss ih =>
    unfold firstOfEachName
    split
    · exact (ih seen).cons s
    · exact (ih (s.name :: seen)).cons_cons s

/-- For each name that is not left out the first symbol wins. -/
theorem first?_firstOfEachName (seen : List String) (ss : List Symbol) (name : String) :
    first? (firstOfEachName seen ss) name = if name ∈ seen then none else first? ss name := by
  induction ss generalizing seen with
  | nil =>
    unfold firstOfEachName first?
    rw [List.find?_nil, ite_self]
  | cons s ss ih =>
    unfold firstOfEachName
    rw [first?_cons]
    by_cases known : s.name ∈ seen
    · rw [if_pos (List.contains_iff_mem.mpr known), ih]
      by_cases same : s.name = name
      · rw [if_pos (same ▸ known), if_pos (same ▸ known)]
      · rw [if_neg same]
    · rw [if_neg fun taken => known (List.contains_iff_mem.mp taken), first?_cons, ih]
      by_cases same : s.name = name
      · rw [if_pos same, if_pos same, if_neg (same ▸ known)]
      · simp only [if_neg same, List.mem_cons, Ne.symm same, false_or]

theorem nodup_firstOfEachName (seen : List String) (ss : List Symbol) :
    ((firstOfEachName seen ss).map Symbol.name).Nodup := by
  induction ss generalizing seen with
  | nil => exact List.nodup_nil
  | cons s ss ih =>
    unfold firstOfEachName
    split
    · exact ih seen
    · rw [List.map_cons, List.nodup_cons]
      refine ⟨fun again => ?_, ih (s.name :: seen)⟩
      obtain ⟨t, member, same⟩ := List.mem_map.mp again
      have found := first?_of_mem (ih (s.name :: seen)) member
      rw [first?_firstOfEachName, same, if_pos List.mem_cons_self] at found
      cases found

/-- Symbols with new names stay, and their names are taken from then on. -/
theorem firstOfEachName_append (seen : List String) {ss : List Symbol} (ts : List Symbol)
    (distinct : (ss.map Symbol.name).Nodup) (new : ∀ s ∈ ss, s.name ∉ seen) :
    firstOfEachName seen (ss ++ ts) =
      ss ++ firstOfEachName ((ss.map Symbol.name).reverse ++ seen) ts := by
  induction ss generalizing seen with
  | nil => rfl
  | cons s ss ih =>
    rw [List.map_cons, List.nodup_cons] at distinct
    rw [List.forall_mem_cons] at new
    have later : ∀ t ∈ ss, t.name ∉ s.name :: seen := by
      intro t member taken
      rcases List.mem_cons.mp taken with same | known
      · exact distinct.1 (List.mem_map.mpr ⟨t, member, same⟩)
      · exact new.2 t member known
    rw [List.cons_append, firstOfEachName, if_neg (by simpa using new.1), ih _ distinct.2 later]
    simp

/-! ### What is near a range -/

/-- The functions of an outline that contain a range, each before those below it. -/
def around (outline : List Symbol) (range : Range) : List Symbol :=
  (Symbol.flatten outline).filter fun s => s.isFunction && s.range.contains range

theorem mem_around_iff {outline : List Symbol} {range : Range} {s : Symbol} :
    s ∈ around outline range ↔
      s ∈ Symbol.flatten outline ∧ s.isFunction = true ∧ s.range.contains range = true := by
  unfold around
  rw [List.mem_filter, Bool.and_eq_true]

/-- The symbols that are local at a range: everything below the last function around it, or the
top level. -/
def locals (outline : List Symbol) (range : Range) : List Symbol :=
  match (around outline range).getLast? with
  | some function => Symbol.flatten function.children
  | none => outline

/-- The functions of a document whose names are not those of `own`, the first of each name. -/
def added (outline own : List Symbol) : List Symbol :=
  firstOfEachName (own.map Symbol.name).reverse ((Symbol.flatten outline).filter Symbol.isFunction)

/-- The latest local symbols come first, and then the functions with other names. -/
theorem nearby_eq (root : Node) (range : Range) :
    nearby root range =
      (mostRecent (locals root.symbols range) range).map Symbol.leaf ++
        (added root.symbols (mostRecent (locals root.symbols range) range)).map Symbol.leaf := by
  have scope : (Symbol.flatten root.symbols).reverse.find?
      (fun s => s.isFunction && s.range.contains range) =
        (around root.symbols range).getLast? := List.getLast?_filter.symm
  have distinct : ((mostRecent (locals root.symbols range) range).map Symbol.name).Nodup := by
    rw [mostRecent_eq_latest]
    exact nodup_latest _
  have front := firstOfEachName_append []
    ((Symbol.flatten root.symbols).filter Symbol.isFunction) distinct (by simp)
  rw [List.append_nil] at front
  unfold nearby added
  rw [← List.map_append, ← front]
  unfold locals
  dsimp only
  rw [scope]
  cases (around root.symbols range).getLast? <;> rfl

theorem mem_flatten_of_mem_locals {outline : List Symbol} {range : Range} {s : Symbol}
    (member : s ∈ locals outline range) : s ∈ Symbol.flatten outline := by
  unfold locals at member
  split at member
  · next function last =>
    have listed := (mem_around_iff.mp (List.mem_of_getLast? last)).1
    exact Symbol.mem_flatten_trans listed member
  · exact Symbol.mem_flatten_of_mem member

theorem first?_map_leaf (ss : List Symbol) (name : String) :
    first? (ss.map Symbol.leaf) name = (first? ss name).map Symbol.leaf := List.find?_map

theorem map_name_leaf (ss : List Symbol) :
    (ss.map Symbol.leaf).map Symbol.name = ss.map Symbol.name := List.map_map

theorem first?_append (ss ts : List Symbol) (name : String) :
    first? (ss ++ ts) name = (first? ss name).or (first? ts name) := List.find?_append

theorem mem_map_name_of_first? {ss : List Symbol} {s : Symbol} {name : String}
    (found : first? ss name = some s) : name ∈ ss.map Symbol.name := by
  have same : s.name = name := by simpa using List.find?_some found
  exact List.mem_map.mpr ⟨s, List.mem_of_find?_eq_some found, same⟩

/-- The functions that are added are functions of the document with other names. -/
theorem of_mem_added {outline own : List Symbol} {s : Symbol} (member : s ∈ added outline own) :
    s ∈ Symbol.flatten outline ∧ s.isFunction = true ∧ s.name ∉ own.map Symbol.name := by
  have listed := List.mem_filter.mp ((firstOfEachName_sublist _ _).subset member)
  refine ⟨listed.1, listed.2, fun taken => ?_⟩
  have found := first?_of_mem (nodup_firstOfEachName _ _) member
  rw [first?_firstOfEachName, if_pos (List.mem_reverse.mpr taken)] at found
  cases found

/-- Under a name there is the latest local symbol, or else the first function of the document. -/
theorem first?_nearby (root : Node) (range : Range) (name : String) :
    first? (nearby root range) name =
      ((last? (earlier (locals root.symbols range) range) name).or
        (first? ((Symbol.flatten root.symbols).filter Symbol.isFunction) name)).map
          Symbol.leaf := by
  have own : first? (mostRecent (locals root.symbols range) range) name =
      last? (earlier (locals root.symbols range) range) name := by
    rw [mostRecent_eq_latest, first?_latest]
  rw [nearby_eq, ← List.map_append, first?_map_leaf, first?_append, added, first?_firstOfEachName]
  cases found : last? (earlier (locals root.symbols range) range) name with
  | some s => rw [own, found, Option.some_or, Option.some_or]
  | none =>
    have free : name ∉ (mostRecent (locals root.symbols range) range).map Symbol.name := by
      intro taken
      obtain ⟨s, member, same⟩ := List.mem_map.mp taken
      rw [mostRecent_eq_latest] at member
      have there := mem_latest_iff.mp member
      rw [same, found] at there
      cases there
    rw [own, found, Option.none_or, Option.none_or, if_neg fun h => free (List.mem_reverse.mp h)]

/-- What is near a range is a local symbol on an earlier line or a function of the document. -/
theorem exists_of_mem_nearby {root : Node} {range : Range} {s : Symbol}
    (member : s ∈ nearby root range) :
    ∃ t ∈ Symbol.flatten root.symbols, s = t.leaf ∧
      (t.range.start.line < range.start.line ∨ t.isFunction = true) := by
  rw [nearby_eq] at member
  rcases List.mem_append.mp member with own | other
  · obtain ⟨t, recent, rfl⟩ := List.mem_map.mp own
    rw [mostRecent_eq_latest] at recent
    have kept := List.mem_filter.mp (mem_of_mem_latest recent)
    exact ⟨t, mem_flatten_of_mem_locals kept.1, rfl, Or.inl (of_decide_eq_true kept.2)⟩
  · obtain ⟨t, free, rfl⟩ := List.mem_map.mp other
    have function := of_mem_added free
    exact ⟨t, function.1, rfl, Or.inr function.2.1⟩

/-- No function of the document is missing among the names that may be meant. -/
theorem name_mem_nearby {root : Node} (range : Range) {f : Symbol}
    (listed : f ∈ Symbol.flatten root.symbols) (function : f.isFunction = true) :
    f.name ∈ (nearby root range).map Symbol.name := by
  have known : (first? ((Symbol.flatten root.symbols).filter Symbol.isFunction) f.name).isSome := by
    apply List.find?_isSome.mpr
    exact ⟨f, List.mem_filter.mpr ⟨listed, function⟩, by simp⟩
  have there : (first? (nearby root range) f.name).isSome := by
    rw [first?_nearby, Option.isSome_map, Option.isSome_or, known, Bool.or_true]
  obtain ⟨s, found⟩ := Option.isSome_iff_exists.mp there
  exact mem_map_name_of_first? found

/-- What may be meant at a range. No name comes twice, and every function of the document is there;
variables start on earlier lines, and all are symbols of the outline without what is below them.
Under each name stands the latest local symbol, failing that the first function. The local ones
come first, and what follows are functions with other names. -/
theorem nearby_names (root : Node) (range : Range) :
    ((nearby root range).map Symbol.name).Nodup ∧
      (∀ f ∈ Symbol.flatten root.symbols, f.isFunction = true →
        f.name ∈ (nearby root range).map Symbol.name) ∧
      (∀ s ∈ nearby root range, s.kind = .var → s.range.start.line < range.start.line) ∧
      (∀ s ∈ nearby root range, ∃ t ∈ Symbol.flatten root.symbols, s = t.leaf) ∧
      (∀ name, first? (nearby root range) name =
        ((last? (earlier (locals root.symbols range) range) name).or
          (first? ((Symbol.flatten root.symbols).filter Symbol.isFunction) name)).map
            Symbol.leaf) ∧
      ∃ own others, nearby root range = own ++ others ∧
        (∀ s, s ∈ own ↔ ∃ t, last? (earlier (locals root.symbols range) range) t.name = some t ∧
          t.leaf = s) ∧
        ∀ s ∈ others, s.isFunction = true ∧
          ∀ t ∈ earlier (locals root.symbols range) range, t.name ≠ s.name := by
  refine ⟨?_, fun f listed function => name_mem_nearby range listed function, ?_, ?_,
    first?_nearby root range, _, _, nearby_eq root range, ?_, ?_⟩
  · unfold nearby
    rw [map_name_leaf]
    exact nodup_firstOfEachName _ _
  · intro s member kind
    obtain ⟨t, -, rfl, early | function⟩ := exists_of_mem_nearby member
    · exact early
    · rw [Symbol.isFunction, show t.kind = .var from kind] at function
      cases function
  · intro s member
    obtain ⟨t, listed, same, -⟩ := exists_of_mem_nearby member
    exact ⟨t, listed, same⟩
  · intro s
    rw [mostRecent_eq_latest, List.mem_map]
    simp only [mem_latest_iff]
  · intro s member
    obtain ⟨f, free, rfl⟩ := List.mem_map.mp member
    obtain ⟨-, function, other⟩ := of_mem_added free
    refine ⟨function, fun t kept same => other ?_⟩
    rw [mostRecent_eq_latest, map_name_latest, List.mem_eraseDups]
    exact List.mem_map.mpr ⟨t, kept, same⟩

end FishNav.Scope
