import Wordcode.Text.Digits
import Wordcode.Text.Double

namespace Wordcode.Toml

/-- The digits of a numeral in which single underscores may stand between digits. -/
def digits? (base : Nat) : List Char → Option (List Char)
  | [] => none
  | c :: cs =>
    if isDigit base c then
      match cs with
      | [] => some [c]
      | '_' :: rest => (digits? base rest).map (c :: ·)
      | cs => (digits? base cs).map (c :: ·)
    else none

def wholeDigits? (cs : List Char) : Option (List Char) :=
  match digits? 10 cs with
  | some ('0' :: _ :: _) => none
  | ds => ds

def splitSign : List Char → Bool × List Char
  | '-' :: cs => (true, cs)
  | '+' :: cs => (false, cs)
  | cs => (false, cs)

def minInteger : Int := -Int.pow 2 63

def maxInteger : Int := Int.pow 2 63 - 1

def magnitude? (cs : List Char) : Option Nat :=
  match cs with
  | '0' :: 'x' :: ds => (digits? 16 ds).map (ofDigits 16)
  | '0' :: 'o' :: ds => (digits? 8 ds).map (ofDigits 8)
  | '0' :: 'b' :: ds => (digits? 2 ds).map (ofDigits 2)
  | _ => none

/-- An integer of 64 bits. Only decimal ones have a sign. -/
def integer? (cs : List Char) : Option Int := do
  let n : Int ← match magnitude? cs with
    | some n => some n
    | none =>
      let (negative, ds) := splitSign cs
      (wholeDigits? ds).map fun ds =>
        if negative then -(ofDigits 10 ds : Int) else ofDigits 10 ds
  if minInteger ≤ n ∧ n ≤ maxInteger then some n else none

def fractionDigits? : List Char → Option (List Char)
  | [] => some []
  | '.' :: cs => digits? 10 cs
  | _ => none

def exponentValue? : List Char → Option Int
  | [] => some 0
  | _ :: cs =>
    let (negative, ds) := splitSign cs
    (digits? 10 ds).map fun ds => if negative then -(ofDigits 10 ds : Int) else ofDigits 10 ds

def isExponentMark (c : Char) : Bool :=
  c == 'e' || c == 'E'

/-- Whether a text is a number with a fraction or exponent. A positive one must not be too large for
a double; a negative one then counts as infinite. -/
def isFloat (cs : List Char) : Bool :=
  let (negative, cs) := splitSign cs
  if cs == ['i', 'n', 'f'] || cs == ['n', 'a', 'n'] then true
  else
    let (mantissa, exponent) := cs.span (!isExponentMark ·)
    let (whole, fraction) := mantissa.span (· != '.')
    match wholeDigits? whole, fractionDigits? fraction, exponentValue? exponent with
    | some ws, some fs, some e =>
      !(fraction.isEmpty && exponent.isEmpty) &&
        (negative || !exceedsDouble (ofDigits 10 (ws ++ fs)) (e - fs.length))
    | _, _, _ => false

def twoDigits? (max : Nat) : List Char → Option (Nat × List Char)
  | a :: b :: rest =>
    let n := ofDigits 10 [a, b]
    if isDecimal a && isDecimal b && n ≤ max then some (n, rest) else none
  | _ => none

def mark? (mark : Char) : List Char → Option (List Char)
  | c :: rest => if c == mark then some rest else none
  | [] => none

def daysIn (year month : Nat) : Nat :=
  if month == 2 then
    if year % 4 == 0 && (year % 100 != 0 || year % 400 == 0) then 29 else 28
  else if month == 4 || month == 6 || month == 9 || month == 11 then 30
  else 31

def date? (cs : List Char) : Option (List Char) := do
  let (century, cs) ← twoDigits? 99 cs
  let (rest, cs) ← twoDigits? 99 cs
  let (month, cs) ← twoDigits? 12 (← mark? '-' cs)
  let (day, cs) ← twoDigits? 31 (← mark? '-' cs)
  if month == 0 || day == 0 || daysIn (century * 100 + rest) month < day then none
  return cs

def time? (cs : List Char) : Option (List Char) := do
  let (_, cs) ← twoDigits? 23 cs
  let (_, cs) ← twoDigits? 59 (← mark? ':' cs)
  let (_, cs) ← twoDigits? 60 (← mark? ':' cs)
  match cs with
  | '.' :: cs => if (cs.takeWhile isDecimal).isEmpty then none else return cs.dropWhile isDecimal
  | cs => return cs

def isOffset : List Char → Bool
  | [] => true
  | ['Z'] => true
  | ['z'] => true
  | sign :: cs =>
    (sign == '+' || sign == '-') &&
      (do
        let (_, cs) ← twoDigits? 23 cs
        let (_, cs) ← twoDigits? 59 (← mark? ':' cs)
        return cs) == some []

def isTimeWithOffset (cs : List Char) : Bool :=
  (time? cs).any isOffset

def isDate (cs : List Char) : Bool :=
  date? cs == some []

def isDateTime (cs : List Char) : Bool :=
  match date? cs with
  | some [] => true
  | some (c :: rest) => (c == 'T' || c == 't') && isTimeWithOffset rest
  | none => time? cs == some []

end Wordcode.Toml
