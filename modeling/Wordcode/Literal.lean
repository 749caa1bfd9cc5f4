import Wordcode.Text.Digits

namespace Wordcode

inductive Literal where
  | hex (digits : List Char)
  | binary (digits : List Char)
  | decimal (digits : List Char)
  /-- `whole.fraction` times ten to the power `exponent`. -/
  | scientific (whole fraction exponent : List Char)
deriving DecidableEq, Repr

namespace Literal

inductive Error where
  | notNumeric (word : String)
  | outOfRange (word : String)
  | fractional (word : String)
deriving DecidableEq, Repr

def Error.message : Error → String
  | .notNumeric word => s!"'{word}' is not a numeric literal"
  | .outOfRange word => s!"value '{word}' is out of range (exceeds max-uint256)"
  | .fractional word => s!"value '{word}' is not an integer"

def maxValue : Nat :=
  Nat.pow 2 256 - 1

def digits? (base : Nat) (cs : List Char) : Option (List Char) :=
  if cs.isEmpty || !cs.all (isDigit base) then none else some cs

def scientific? (whole fraction exponent : List Char) : Option Literal :=
  (digits? 10 exponent).map (.scientific whole fraction)

def ofChars? : List Char → Option Literal
  | '0' :: 'x' :: cs => (digits? 16 cs).map .hex
  | '0' :: 'b' :: cs => (digits? 2 cs).map .binary
  | cs =>
    match cs.span isDecimal with
    | ([], _) => none
    | (whole, []) => some (.decimal whole)
    | (whole, 'e' :: rest) => scientific? whole [] rest
    | (whole, '.' :: rest) =>
      match rest.span isDecimal with
      | ([], _) => none
      | (fraction, 'e' :: rest) => scientific? whole fraction rest
      | _ => none
    | _ => none

def isNumeric (word : String) : Bool :=
  (ofChars? word.toList).isSome

/-- The words that stand for the largest value, in any letter case. -/
def isSentinel (word : String) : Bool :=
  let lower := word.toList.map Char.toLower
  ["max-uint256", "max_uint256", "infinity"].any (·.toList == lower)

inductive Denotation where
  | integer (n : Nat)
  | fractional
  /-- An integer that has more than 78 zeros at its end. -/
  | huge

def dropZeros (fraction : List Char) : List Char :=
  (fraction.reverse.dropWhile (· == '0')).reverse

/-- An exponent that exceeds the number of decimals by more than 78 leads out of range, and so does
one of `2 ^ 32` or more. -/
def scale (mantissa decimals exponent : Nat) : Denotation :=
  if mantissa = 0 then .integer 0
  else if Nat.pow 2 32 ≤ exponent then .huge
  else if exponent < decimals then .fractional
  else if 78 < exponent - decimals then .huge
  else .integer (mantissa * Nat.pow 10 (exponent - decimals))

/-- Decimals are counted without the zeros at their end, and in 32 bits. -/
def denotation : Literal → Denotation
  | .hex ds => .integer (ofDigits 16 ds)
  | .binary ds => .integer (ofDigits 2 ds)
  | .decimal ds => .integer (ofDigits 10 ds)
  | .scientific whole fraction exponent =>
    let fraction := dropZeros fraction
    scale (ofDigits 10 (whole ++ fraction)) (fraction.length % Nat.pow 2 32) (ofDigits 10 exponent)

def read (word : String) : Except Error Nat :=
  if isSentinel word then .ok maxValue
  else
    match ofChars? word.toList with
    | none => .error (.notNumeric word)
    | some l =>
      match l.denotation with
      | .integer n => if n ≤ maxValue then .ok n else .error (.outOfRange word)
      | .fractional => .error (.fractional word)
      | .huge => .error (.outOfRange word)

end Literal

end Wordcode
