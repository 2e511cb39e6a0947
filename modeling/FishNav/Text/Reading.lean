/-!
# Reading from the front of a text

A reader takes some characters from the front of a text and returns what it made of them together
with the text that follows. That text is never longer than the one it was given, and this is what
lets readers that call each other end.
-/
namespace FishNav.Text

/-- What a reader made of the front of `cs`, and what follows it. -/
structure Reading (α : Type) (cs : List Char) where
  value : α
  rest : List Char
  le : rest.length ≤ cs.length

namespace Reading

variable {α β : Type} {cs rest : List Char}

/-- Takes nothing. -/
def here (value : α) : Reading α cs := ⟨value, cs, Nat.le_refl _⟩

/-- What was read from a later point on, seen from `cs`. -/
def behind (r : Reading α rest) (h : rest.length ≤ cs.length) : Reading α cs :=
  ⟨r.value, r.rest, Nat.le_trans r.le h⟩

/-- What was read behind at least one character more, seen from `cs`. -/
def past (r : Reading α rest) (h : rest.length < cs.length) : Reading α cs :=
  r.behind (Nat.le_of_lt h)

/-- What was read behind one more character. -/
def cons {c : Char} (r : Reading α cs) : Reading α (c :: cs) := r.behind (Nat.le_succ _)

def map (f : α → β) (r : Reading α cs) : Reading β cs := ⟨f r.value, r.rest, r.le⟩

@[simp] theorem here_value (a : α) : (here a : Reading α cs).value = a := rfl

@[simp] theorem here_rest (a : α) : (here a : Reading α cs).rest = cs := rfl

@[simp] theorem behind_value (r : Reading α rest) (h : rest.length ≤ cs.length) :
    (r.behind h).value = r.value := rfl

@[simp] theorem behind_rest (r : Reading α rest) (h : rest.length ≤ cs.length) :
    (r.behind h).rest = r.rest := rfl

@[simp] theorem past_value (r : Reading α rest) (h : rest.length < cs.length) :
    (r.past h).value = r.value := rfl

@[simp] theorem past_rest (r : Reading α rest) (h : rest.length < cs.length) :
    (r.past h).rest = r.rest := rfl

@[simp] theorem cons_value (c : Char) (r : Reading α cs) :
    (r.cons : Reading α (c :: cs)).value = r.value := rfl

@[simp] theorem cons_rest (c : Char) (r : Reading α cs) :
    (r.cons : Reading α (c :: cs)).rest = r.rest := rfl

@[simp] theorem map_value (f : α → β) (r : Reading α cs) : (r.map f).value = f r.value := rfl

@[simp] theorem map_rest (f : α → β) (r : Reading α cs) : (r.map f).rest = r.rest := rfl

end Reading

/-- The first character of `cs` behind a gap, and what follows it. -/
structure Next (cs : List Char) where
  gap : List Char
  head : Char
  tail : List Char
  lt : tail.length < cs.length

theorem length_dropWhile_le (p : Char → Bool) (cs : List Char) :
    (cs.dropWhile p).length ≤ cs.length :=
  (List.dropWhile_suffix p).length_le

def skip (p : Char → Bool) (cs : List Char) : Reading (List Char) cs :=
  ⟨cs.takeWhile p, cs.dropWhile p, length_dropWhile_le p cs⟩

/-- Looks for the first character that is not in `p`. -/
def next? (p : Char → Bool) (cs : List Char) : Option (Next cs) :=
  match h : cs.dropWhile p with
  | [] => none
  | c :: rest => some ⟨cs.takeWhile p, c, rest, by
      have := length_dropWhile_le p cs
      rw [h, List.length_cons] at this
      omega⟩

def char? (c : Char) : (cs : List Char) → Option (Next cs)
  | d :: cs => if d = c then some ⟨[], d, cs, by simp⟩ else none
  | [] => none

end FishNav.Text
