import Wordcode.Text.Digits

namespace Wordcode

/-- The least integer that rounds to no double. -/
def doubleLimit : Nat :=
  Nat.pow 2 1024 - Nat.pow 2 970

def exceedsDouble (mantissa : Nat) (exponent : Int) : Bool :=
  let magnitude := (Nat.toDigits 10 mantissa).length + exponent
  if mantissa = 0 || magnitude < 309 then false
  else if magnitude > 309 then true
  else if 0 ≤ exponent then doubleLimit ≤ mantissa * Nat.pow 10 exponent.toNat
  else doubleLimit * Nat.pow 10 (-exponent).toNat ≤ mantissa

/-- The nearest integer with at most 53 significant bits, of two the even one. -/
def roundDouble (n : Nat) : Nat :=
  let unit := Nat.pow 2 (n.log2 - 52)
  let q := n / unit
  let r := n % unit
  if unit < 2 * r || (unit == 2 * r && q % 2 == 1) then (q + 1) * unit else q * unit

/-- The value of the digits as far as it stays below `2 ^ 64`, behind digits of value `n`, and the
number of digits left. -/
def leadingDigits (n : Nat) : List Char → Nat × Nat
  | [] => (n, 0)
  | c :: cs =>
    let m := n * 10 + (digitValue? c).getD 0
    if m < Nat.pow 2 64 then leadingDigits m cs else (n, cs.length + 1)

/-- Whether a product of rounded factors is too large for a double: the first is made of the
leading digits of `whole.fraction`, the second is the power of ten. -/
def exceedsScaled (whole fraction : List Char) (exponent : Int) : Bool :=
  let (n, skipped) := leadingDigits 0 whole
  let (n, unread) := leadingDigits n fraction
  let exponent := exponent + skipped - (fraction.length - unread : Nat)
  if n = 0 || exponent < 0 then false
  else if 308 < exponent then true
  else doubleLimit ≤ roundDouble n * roundDouble (Nat.pow 10 exponent.toNat)

end Wordcode
