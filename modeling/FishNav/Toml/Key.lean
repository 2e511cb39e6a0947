import FishNav.Toml.Quoted

/-!
# Keys of TOML

A key is a row of parts with dots between them; each part is a word or a string on one line.
-/
namespace FishNav.Toml

open Text
open Reading (here)

/-- A key has fewer parts than this, and fewer arrays and inline tables stand one in another. -/
def depthLimit : Nat := 80

def isKeyChar (c : Char) : Bool := c.isAlphanum || c == '_' || c == '-'

def keyPart (cs : List Char) : Option (Reading String cs) := do
  let ⟨_, c, tail, h⟩ ← next? isBlank cs
  let ⟨name, rest, h'⟩ ←
    if c = '"' || c = '\'' then shortString c tail
    else if isKeyChar c then
      let ⟨more, rest, h'⟩ := skip isKeyChar tail
      some (⟨c :: more, rest, h'⟩ : Reading (List Char) tail)
    else none
  let ⟨_, _, h''⟩ := skip isBlank rest
  return here (String.ofList name) |>.behind h'' |>.behind h' |>.past h

def keyParts (cs : List Char) : Option (Reading (List String) cs) := do
  let ⟨first, rest, h⟩ ← keyPart cs
  match char? '.' rest with
  | some ⟨_, _, rest₁, h₁⟩ =>
    let more ← keyParts rest₁
    return more.map (first :: ·) |>.past h₁ |>.behind h
  | none => return here [first] |>.behind h
termination_by cs.length

def key (cs : List Char) : Option (Reading (List String) cs) :=
  (keyParts cs).filter fun parts => parts.value.length < depthLimit

end FishNav.Toml
