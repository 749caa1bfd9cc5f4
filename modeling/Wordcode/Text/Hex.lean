import Wordcode.Text.Digits

namespace Wordcode.Hex

inductive Error where
  | oddLength
  | badDigit (b : UInt8) (index : Nat)
deriving DecidableEq, Repr

/-- Whether the character of a code point below 256 is a space or can be seen. -/
def isVisible (b : UInt8) : Bool :=
  (0x20 ≤ b && b ≤ 0x7E) || (0xA1 ≤ b && b != 0xAD)

/-- The character of a code point below 256 as it stands between single quotes, with an escape for
one that cannot stand there or be seen. -/
def shown (b : UInt8) : String :=
  if b == 0x00 then "\\0"
  else if b == 0x09 then "\\t"
  else if b == 0x0A then "\\n"
  else if b == 0x0D then "\\r"
  else if b == 0x27 then "\\'"
  else if b == 0x5C then "\\\\"
  else if isVisible b then String.singleton (Char.ofNat b.toNat)
  else "\\u\x7b" ++ hexadecimal 1 b.toNat ++ "\x7d"

def Error.message : Error → String
  | .oddLength => "Odd number of digits"
  | .badDigit b index => "Invalid character '" ++ shown b ++ s!"' at position {index}"

def encode (bytes : List UInt8) : String :=
  String.ofList (bytes.flatMap fun b =>
    [Nat.digitChar (b.toNat / 16), Nat.digitChar (b.toNat % 16)])

def digit (index : Nat) (b : UInt8) : Except Error UInt8 :=
  match digitValue? (Char.ofNat b.toNat) with
  | some n => .ok (UInt8.ofNat n)
  | none => .error (.badDigit b index)

def decodePairs (index : Nat) (done : List UInt8) : List UInt8 → Except Error (List UInt8)
  | high :: low :: rest => do
    let h ← digit index high
    let l ← digit (index + 1) low
    decodePairs (index + 2) ((h * 16 + l) :: done) rest
  | _ => .ok done.reverse

/-- Reads the UTF-8 bytes of a text, so that lengths and indices count bytes. -/
def decode (text : String) : Except Error (List UInt8) :=
  let bytes := text.toUTF8.data.toList
  if bytes.length % 2 = 1 then .error .oddLength else decodePairs 0 [] bytes

def dropMark (text : String) : String :=
  match text.toList with
  | '0' :: 'x' :: rest => String.ofList rest
  | _ => text

end Wordcode.Hex
