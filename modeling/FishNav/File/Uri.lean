import FishNav.File.Path

/-!
# File URIs

A path becomes a URI by writing it behind `file://` with every byte as a percent sign and two
hexadecimal digits, except for letters, digits and `/ . - _ ~`. On the way back a percent sign
without two hexadecimal digits stands for itself, bytes that are no UTF-8 become U+FFFD, and what
does not start with `file://` is taken for a path.
-/
namespace FishNav.Uri

def scheme : List Char := ['f', 'i', 'l', 'e', ':', '/', '/']

/-- Written as it is. -/
def isPlain (c : Char) : Bool :=
  c.isAlphanum || c == '/' || c == '.' || c == '-' || c == '_' || c == '~'

def hexDigit (n : Nat) : Char :=
  if n < 10 then Char.ofNat ('0'.toNat + n) else Char.ofNat ('A'.toNat + (n - 10))

def hexValue? (c : Char) : Option Nat :=
  if '0' ≤ c ∧ c ≤ '9' then some (c.toNat - '0'.toNat)
  else if 'A' ≤ c ∧ c ≤ 'F' then some (c.toNat - 'A'.toNat + 10)
  else if 'a' ≤ c ∧ c ≤ 'f' then some (c.toNat - 'a'.toNat + 10)
  else none

def encodeByte (b : UInt8) : List Char :=
  ['%', hexDigit (b.toNat / 16), hexDigit (b.toNat % 16)]

def encodeChar (c : Char) : List Char :=
  if isPlain c then [c] else (String.utf8EncodeChar c).flatMap encodeByte

def encode (cs : List Char) : List Char := cs.flatMap encodeChar

/-- The bytes that a percent-encoded text stands for. -/
def decodeBytes : List Char → List UInt8
  | '%' :: a :: b :: cs =>
    match hexValue? a, hexValue? b with
    | some high, some low => UInt8.ofNat (high * 16 + low) :: decodeBytes cs
    | _, _ => 0x25 :: decodeBytes (a :: b :: cs)
  | c :: cs => String.utf8EncodeChar c ++ decodeBytes cs
  | [] => []

/-! ### Bytes as text -/

def replacement : Char := Char.ofNat 0xfffd

def isContinuation (b : UInt8) : Bool := 0x80 ≤ b && b ≤ 0xbf

/-- May be the second byte of a character of three or four bytes that starts with `a`. -/
def isSecond (a b : UInt8) : Bool :=
  if a == 0xe0 then 0xa0 ≤ b && b ≤ 0xbf
  else if a == 0xed then 0x80 ≤ b && b ≤ 0x9f
  else if a == 0xf0 then 0x90 ≤ b && b ≤ 0xbf
  else if a == 0xf4 then 0x80 ≤ b && b ≤ 0x8f
  else isContinuation b

/-- The text of some bytes in UTF-8. Each longest run of bytes that could start a character and
does not go on to be one becomes one U+FFFD, and so does each byte that cannot start one. -/
def decodeLossy : List UInt8 → List Char
  | [] => []
  | a :: rest =>
    if a < 0x80 then Char.ofNat a.toNat :: decodeLossy rest
    else if 0xc2 ≤ a && a ≤ 0xdf then
      match rest with
      | b :: rest =>
        if isContinuation b then
          Char.ofNat ((a.toNat - 0xc0) * 0x40 + (b.toNat - 0x80)) :: decodeLossy rest
        else replacement :: decodeLossy (b :: rest)
      | [] => [replacement]
    else if 0xe0 ≤ a && a ≤ 0xef then
      match rest with
      | b :: rest =>
        if isSecond a b then
          match rest with
          | c :: rest =>
            if isContinuation c then
              Char.ofNat ((a.toNat - 0xe0) * 0x1000 + (b.toNat - 0x80) * 0x40 +
                (c.toNat - 0x80)) :: decodeLossy rest
            else replacement :: decodeLossy (c :: rest)
          | [] => [replacement]
        else replacement :: decodeLossy (b :: rest)
      | [] => [replacement]
    else if 0xf0 ≤ a && a ≤ 0xf4 then
      match rest with
      | b :: rest =>
        if isSecond a b then
          match rest with
          | c :: rest =>
            if isContinuation c then
              match rest with
              | d :: rest =>
                if isContinuation d then
                  Char.ofNat ((a.toNat - 0xf0) * 0x40000 + (b.toNat - 0x80) * 0x1000 +
                    (c.toNat - 0x80) * 0x40 + (d.toNat - 0x80)) :: decodeLossy rest
                else replacement :: decodeLossy (d :: rest)
              | [] => [replacement]
            else replacement :: decodeLossy (c :: rest)
          | [] => [replacement]
        else replacement :: decodeLossy (b :: rest)
      | [] => [replacement]
    else replacement :: decodeLossy rest

/-! ### Paths -/

/-- The URI of a path, seen from the directory `cwd` if it is relative. -/
def ofPath (cwd p : String) : String :=
  String.ofList (scheme ++ encode (Path.join cwd p).toList)

def toPath (uri : String) : String :=
  match Text.after? scheme uri.toList with
  | some encoded => String.ofList (decodeLossy (decodeBytes encoded))
  | none => uri

end FishNav.Uri
