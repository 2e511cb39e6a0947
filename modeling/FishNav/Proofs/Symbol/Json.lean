import FishNav.Proofs.Report
import FishNav.Symbol.Json
import Mathlib.Data.List.Forall2

/-!
# Symbols written as JSON and read back

Reading undoes writing (`ofJson?_toJson`), although a detail and children are written down only if
there are some, and a missing member and an empty list must not be taken for one another. In which
order the members of an object stand does not matter, at any level (`Json.Same.alike`): whatever is
read from a value goes through the members by their keys. So no two symbols are written as the same
value (`toJson_canonical`).
-/
namespace FishNav

namespace Json

/-- The same value: the members of objects may stand in another order, at every level. -/
inductive Same : Json → Json → Prop
  | refl (v : Json) : Same v v
  | trans {u v w : Json} (first : Same u v) (second : Same v w) : Same u w
  | swap (front back : List (String × Json)) {a b : String × Json} (apart : a.1 ≠ b.1) :
      Same (.obj (front ++ a :: b :: back)) (.obj (front ++ b :: a :: back))
  | member (front back : List (String × Json)) (key : String) {v w : Json} (inner : Same v w) :
      Same (.obj (front ++ (key, v) :: back)) (.obj (front ++ (key, w) :: back))
  | item (front back : List Json) {v w : Json} (inner : Same v w) :
      Same (.arr (front ++ v :: back)) (.arr (front ++ w :: back))

/-! ### Members by their keys -/

variable {key : String} {ms ns front back : List (String × Json)} {a b : String × Json}

/-- Of two members with one key the later one counts. -/
theorem get?_append : (obj (ms ++ ns)).get? key = ((obj ns).get? key).or ((obj ms).get? key) := by
  simp only [get?, List.reverse_append, List.find?_append, Option.map_or]

theorem get?_cons :
    (obj (a :: ms)).get? key = ((obj ms).get? key).or (if a.1 = key then some a.2 else none) := by
  rw [← List.singleton_append, get?_append]
  congr 1
  by_cases same : a.1 = key <;> simp [get?, same]

/-- Members with different keys may change places. -/
theorem get?_swap (apart : a.1 ≠ b.1) :
    (obj (front ++ a :: b :: back)).get? key = (obj (front ++ b :: a :: back)).get? key := by
  simp only [get?_append, get?_cons]
  by_cases first : a.1 = key
  · have other : b.1 ≠ key := fun second => apart (first.trans second.symm)
    simp [first, other]
  · simp [first]

/-! ### What readers see of a value -/

/-- No reader of symbols or of their parts tells the values apart. -/
structure Alike (v w : Json) : Prop where
  null : v = .null ↔ w = .null
  string : v.string? = w.string?
  nat : ∀ bound, v.natBelow? bound = w.natBelow? bound
  position : Position.ofJson? v = Position.ofJson? w
  range : Range.ofJson? v = Range.ofJson? w
  kind : SymbolKind.ofJson? v = SymbolKind.ofJson? w
  detail : Symbol.detailOfJson? v = Symbol.detailOfJson? w
  symbol : Symbol.ofJson? v = Symbol.ofJson? w
  symbols : Symbol.ofArray? v = Symbol.ofArray? w

namespace Alike

variable {u v w : Json} {x y x' y' : Option Json} {vs ws : List Json}

theorem refl (v : Json) : Alike v v := by
  constructor <;> intros <;> rfl

theorem trans (first : Alike u v) (second : Alike v w) : Alike u w where
  null := first.null.trans second.null
  string := first.string.trans second.string
  nat bound := (first.nat bound).trans (second.nat bound)
  position := first.position.trans second.position
  range := first.range.trans second.range
  kind := first.kind.trans second.kind
  detail := first.detail.trans second.detail
  symbol := first.symbol.trans second.symbol
  symbols := first.symbols.trans second.symbols

/-- Members that are missing on both sides, or alike. -/
abbrev Both : Option Json → Option Json → Prop := Option.Rel Alike

theorem both_refl (x : Option Json) : Both x x := by
  cases x with
  | none => exact .none
  | some v => exact .some (refl v)

theorem both_or (left : Both x y) (right : Both x' y') : Both (x.or x') (y.or y') := by
  cases left with
  | some inner => exact .some inner
  | none => exact right

/-- To read a member that is alike on both sides and to go on alike gives the same. -/
theorem bind_eq {α : Type} {f g : Json → Option α} (both : Both x y)
    (same : ∀ v w, Alike v w → f v = g w) : (x >>= f) = (y >>= g) := by
  cases both with
  | none => rfl
  | some inner => exact same _ _ inner

theorem getD_null (both : Both x y) : Alike (x.getD .null) (y.getD .null) := by
  cases both with
  | none => exact refl _
  | some inner => exact inner

theorem map_ofArray? (both : Both x y) : x.map Symbol.ofArray? = y.map Symbol.ofArray? := by
  cases both with
  | none => rfl
  | some inner => rw [Option.map_some, Option.map_some, inner.symbols]

theorem ofItems?_eq (items : List.Forall₂ Alike vs ws) :
    Symbol.ofItems? vs = Symbol.ofItems? ws := by
  induction items with
  | nil => rfl
  | cons first _ ih => rw [Symbol.ofItems?, Symbol.ofItems?, first.symbol, ih]

end Alike

end Json

namespace Symbol

open Json

theorem childrenOfMembers?_eq (ms : List (String × Json)) :
    childrenOfMembers? ms = ((obj ms).get? "children").map ofArray? := by
  induction ms with
  | nil => rfl
  | cons a ms ih =>
    rw [childrenOfMembers?, ih, get?_cons]
    cases (obj ms).get? "children" with
    | some v => rfl
    | none => by_cases same : a.1 = "children" <;> simp [same]

end Symbol

namespace Json

namespace Alike

variable {v w : Json} {ms ns : List (String × Json)} {vs ws : List Json}

/-- Objects whose members are alike by their keys. Kinds alone are read from an object without
looking for a key. -/
theorem obj (members : ∀ key, Both ((Json.obj ms).get? key) ((Json.obj ns).get? key))
    (kind : SymbolKind.ofJson? (.obj ms) = SymbolKind.ofJson? (.obj ns)) :
    Alike (.obj ms) (.obj ns) where
  null := by simp
  string := rfl
  nat _ := rfl
  kind := kind
  detail := rfl
  symbols := rfl
  position := by
    refine bind_eq (members "line") fun v w line => bind_eq (members "character") ?_
    intro v' w' column
    rw [line.nat, column.nat]
  range := by
    refine bind_eq (members "start") fun v w start => bind_eq (members "end") ?_
    intro v' w' stop
    rw [start.position, stop.position]
  symbol := by
    have children : Symbol.childrenOfMembers? ms = Symbol.childrenOfMembers? ns := by
      rw [Symbol.childrenOfMembers?_eq, Symbol.childrenOfMembers?_eq]
      exact map_ofArray? (members "children")
    rw [Symbol.ofJson?, Symbol.ofJson?, (getD_null (members "detail")).detail, children]
    refine bind_eq (members "name") fun _ _ name => ?_
    rw [name.string]
    refine Option.bind_congr fun _ _ => bind_eq (members "kind") fun _ _ kind => ?_
    rw [kind.kind]
    refine Option.bind_congr fun _ _ => bind_eq (members "range") fun _ _ range => ?_
    rw [range.range]
    refine Option.bind_congr fun _ _ => bind_eq (members "selection_range") fun _ _ selection => ?_
    rw [selection.range]

theorem childrenOfTail?_eq (items : List.Forall₂ Alike vs ws) :
    Symbol.childrenOfTail? vs = Symbol.childrenOfTail? ws := by
  rcases items with _ | ⟨only, _ | ⟨_, _⟩⟩
  · rfl
  · rw [Symbol.childrenOfTail?, Symbol.childrenOfTail?, only.symbols]
  · rfl

theorem arr (items : List.Forall₂ Alike vs ws) : Alike (.arr vs) (.arr ws) where
  null := by simp
  string := rfl
  nat _ := rfl
  kind := rfl
  detail := rfl
  symbols := by rw [Symbol.ofArray?, Symbol.ofArray?, ofItems?_eq items]
  position := by
    rcases items with _ | ⟨line, _ | ⟨column, _ | ⟨_, _⟩⟩⟩
    · rfl
    · rfl
    · rw [Position.ofJson?, Position.ofJson?, line.nat, column.nat]
    · rfl
  range := by
    rcases items with _ | ⟨start, _ | ⟨stop, _ | ⟨_, _⟩⟩⟩
    · rfl
    · rfl
    · rw [Range.ofJson?, Range.ofJson?, start.position, stop.position]
    · rfl
  symbol := by
    rcases items with _ | ⟨name, _ | ⟨kind, _ | ⟨range, _ | ⟨selection, _ | ⟨detail, more⟩⟩⟩⟩⟩
    · rfl
    · rfl
    · rfl
    · rfl
    · rfl
    · rw [Symbol.ofJson?, Symbol.ofJson?, name.string, kind.kind, range.range, selection.range,
        detail.detail, childrenOfTail?_eq more]

theorem kind_of_single (inner : Alike v w) (key : String) :
    SymbolKind.ofJson? (.obj [(key, v)]) = SymbolKind.ofJson? (.obj [(key, w)]) := by
  have other : ∀ {v : Json}, v ≠ .null → SymbolKind.ofJson? (.obj [(key, v)]) = none := by
    intro v some
    cases v with
    | null => exact absurd rfl some
    | _ => rfl
  by_cases null : v = .null
  · rw [null, inner.null.mp null]
  · rw [other null, other fun null' => null (inner.null.mpr null')]

end Alike

/-- A kind is read from one member only. -/
theorem kind_of_length {ms : List (String × Json)} (other : ms.length ≠ 1) :
    SymbolKind.ofJson? (.obj ms) = none := by
  rcases ms with _ | ⟨⟨key, v⟩, _ | ⟨b, ms⟩⟩
  · rfl
  · exact absurd rfl other
  · cases v <;> rfl

/-- The order of members is never seen by a reader. -/
theorem Same.alike {v w : Json} (same : Same v w) : Alike v w := by
  induction same with
  | refl v => exact .refl v
  | trans _ _ first second => exact first.trans second
  | swap front back apart =>
    refine .obj (fun key => ?_) ?_
    · rw [get?_swap apart]
      exact Alike.both_refl _
    · rw [kind_of_length (by simp; omega), kind_of_length (by simp; omega)]
  | member front back key _ inner =>
    refine .obj (fun other => ?_) ?_
    · simp only [get?_append, get?_cons]
      refine Alike.both_or (Alike.both_or (Alike.both_refl _) ?_) (Alike.both_refl _)
      by_cases here : key = other
      · rw [if_pos here, if_pos here]
        exact .some inner
      · rw [if_neg here, if_neg here]
        exact .none
    · by_cases alone : front.length + back.length = 0
      · obtain ⟨rfl, rfl⟩ : front = [] ∧ back = [] := by
          rwa [Nat.add_eq_zero_iff, List.length_eq_zero_iff, List.length_eq_zero_iff] at alone
        exact inner.kind_of_single key
      · rw [kind_of_length (by simp; omega), kind_of_length (by simp; omega)]
  | item front back _ inner =>
    have rest : ∀ vs : List Json, List.Forall₂ Alike vs vs :=
      fun vs => List.forall₂_same.mpr fun v _ => .refl v
    exact .arr (List.rel_append (rest front) (.cons inner (rest back)))

end Json

/-! ### Writing and reading -/

theorem Position.ofJson?_toJson {p : Position} (word : p.IsWord) :
    Position.ofJson? p.toJson = some p := by
  simp [Position.toJson, Position.ofJson?, Json.get?, Json.natBelow?, word.1, word.2]

theorem Range.ofJson?_toJson {r : Range} (word : r.IsWord) : Range.ofJson? r.toJson = some r := by
  simp [Range.toJson, Range.ofJson?, Json.get?, Position.ofJson?_toJson word.1,
    Position.ofJson?_toJson word.2]

/-- Each kind is read back from its name. -/
theorem SymbolKind.ofJson?_name (kind : SymbolKind) :
    SymbolKind.ofJson? (.str kind.name) = some kind := by
  cases kind <;> rfl

namespace Symbol

/-- The coordinates of a symbol and of all symbols below it are 32-bit words. -/
inductive InWords : Symbol → Prop
  | symbol {s : Symbol} (range : s.range.IsWord) (selection : s.selection.IsWord)
      (below : ∀ c ∈ s.children, InWords c) : InWords s

theorem toJsonAll_eq (ss : List Symbol) : toJsonAll ss = ss.map toJson := by
  induction ss with
  | nil => rw [toJsonAll, List.map_nil]
  | cons s ss ih => rw [toJsonAll, ih, List.map_cons]

/-- The members of a symbol: four that are always there, a detail if there is one, and children if
there are any. -/
theorem toJson_eq (s : Symbol) :
    s.toJson = .obj (
      [("name", .str s.name), ("kind", .str s.kind.name), ("range", s.range.toJson),
        ("selection_range", s.selection.toJson)] ++
      (s.detail.map fun text => ("detail", Json.str text)).toList ++
      if s.children.isEmpty then [] else [("children", .arr (s.children.map toJson))]) := by
  rcases s with ⟨name, kind, range, selection, _ | text, _ | ⟨c, cs⟩⟩ <;>
    simp [toJson, toJsonAll_eq]

theorem get?_required (s : Symbol) :
    s.toJson.get? "name" = some (.str s.name) ∧ s.toJson.get? "kind" = some (.str s.kind.name) ∧
      s.toJson.get? "range" = some s.range.toJson ∧
      s.toJson.get? "selection_range" = some s.selection.toJson := by
  rw [toJson_eq]
  cases s.detail <;> cases s.children <;> simp [Json.get?]

theorem get?_detail (s : Symbol) : s.toJson.get? "detail" = s.detail.map .str := by
  rw [toJson_eq]
  cases s.detail <;> cases s.children <;> simp [Json.get?]

theorem get?_children (s : Symbol) :
    s.toJson.get? "children" =
      if s.children.isEmpty then none else some (.arr (s.children.map toJson)) := by
  rw [toJson_eq]
  cases s.detail <;> cases s.children <;> simp [Json.get?]

theorem ofItems?_map {ss : List Symbol} (each : ∀ s ∈ ss, ofJson? s.toJson = some s) :
    ofItems? (ss.map toJson) = some ss := by
  induction ss with
  | nil => rfl
  | cons s ss ih =>
    rw [List.map_cons, ofItems?, each s List.mem_cons_self,
      ih fun t member => each t (List.mem_cons_of_mem s member)]
    rfl

/-- A symbol in words is read back from its JSON form, with all symbols below it. -/
theorem ofJson?_toJson {s : Symbol} (words : s.InWords) : ofJson? s.toJson = some s := by
  induction words with
  | @symbol s range selection _ ih =>
    have detail : detailOfJson? ((s.toJson.get? "detail").getD .null) = some s.detail := by
      rw [get?_detail]
      cases s.detail <;> rfl
    have children : ((s.toJson.get? "children").map ofArray?).getD (some []) = some s.children := by
      rw [get?_children]
      cases none : s.children with
      | nil => rfl
      | cons c cs =>
        rw [none] at ih
        exact ofItems?_map ih
    obtain ⟨name, kind, place, token⟩ := s.get?_required
    obtain ⟨ms, written⟩ : ∃ ms, s.toJson = .obj ms := ⟨_, s.toJson_eq⟩
    rw [written] at name kind place token detail children ⊢
    rw [ofJson?, childrenOfMembers?_eq, name, kind, place, token, detail, children]
    simp only [Option.pure_def, Option.bind_eq_bind, Option.bind_some, Json.string?,
      SymbolKind.ofJson?_name, Range.ofJson?_toJson range, Range.ofJson?_toJson selection]
    cases s
    rfl

/-- A symbol is read back from what it is written as, in whatever order the members stand, and no
other symbol is written as the same value. A detail is written down if there is one, be it empty,
and children if there are any. -/
theorem toJson_canonical (s : Symbol) (words : s.InWords) :
    (∀ v, Json.Same s.toJson v → ofJson? v = some s) ∧
      (∀ t : Symbol, t.InWords → (Json.Same s.toJson t.toJson ↔ s = t)) ∧
      s.toJson.get? "detail" = s.detail.map .str ∧
      s.toJson.get? "children" =
        if s.children.isEmpty then none else some (.arr (s.children.map toJson)) := by
  have read : ∀ v, Json.Same s.toJson v → ofJson? v = some s := by
    intro v same
    rw [← same.alike.symbol, ofJson?_toJson words]
  refine ⟨read, fun t words' => ⟨fun same => ?_, ?_⟩, s.get?_detail, s.get?_children⟩
  · exact Option.some.inj ((read _ same).symm.trans (ofJson?_toJson words'))
  · rintro rfl
    exact .refl _

/-- A function with this detail and, below it, a variable without one that ends at the greatest
coordinates. -/
def annotated (detail : Option String) : Symbol where
  name := "f"
  kind := .function
  range := ⟨⟨0, 0⟩, ⟨4294967295, 4294967295⟩⟩
  selection := ⟨⟨0, 9⟩, ⟨0, 10⟩⟩
  detail
  children := [⟨"x", .var, ⟨⟨1, 0⟩, ⟨1, 7⟩⟩, ⟨⟨1, 4⟩, ⟨1, 4294967295⟩⟩, none, []⟩]

/-- With the kind written before the name the symbol is read back, and an empty detail is written
in another way than none. -/
theorem toJson_canonical_annotated :
    (annotated (some "")).InWords ∧ (annotated none).InWords ∧
      (∃ back, Json.Same (annotated (some "")).toJson
          (.obj (("kind", .str "function") :: ("name", .str "f") :: back)) ∧
        ofJson? (.obj (("kind", .str "function") :: ("name", .str "f") :: back)) =
          some (annotated (some ""))) ∧
      ¬ Json.Same (annotated (some "")).toJson (annotated none).toJson := by
  have words : ∀ detail, (annotated detail).InWords := by
    intro detail
    have whole : (⟨⟨0, 0⟩, ⟨4294967295, 4294967295⟩⟩ : Range).IsWord := by decide
    have token : (⟨⟨0, 9⟩, ⟨0, 10⟩⟩ : Range).IsWord := by decide
    refine .symbol whole token fun c member => ?_
    obtain rfl := List.mem_singleton.mp member
    exact .symbol (by decide) (by decide) (by simp)
  obtain ⟨read, only, -⟩ := toJson_canonical (annotated (some "")) (words _)
  have swapped : Json.Same (annotated (some "")).toJson (.obj (("kind", .str "function") ::
      ("name", .str "f") :: _)) := .swap [] _ (by decide)
  refine ⟨words _, words _, ⟨_, swapped, read _ swapped⟩, fun same => ?_⟩
  cases congrArg Symbol.detail ((only _ (words none)).mp same)

end Symbol

end FishNav
