import Wordcode.Json.Basic
import Wordcode.Text.Digits
import Wordcode.Text.Double

namespace Wordcode.Json

inductive Token where
  | openArray
  | closeArray
  | openObject
  | closeObject
  | comma
  | colon
  /-- A string, without a value if an unpaired surrogate or a malformed byte is in it. -/
  | string (s : Option String)
  /-- `null`, a boolean or a number. -/
  | scalar (v : Json)

structure StringState where
  /-- Characters, the last one first. -/
  done : List Char := []
  /-- A leading surrogate whose partner has to follow at once. -/
  leading : Option Nat := none
  /-- Whether an unpaired surrogate or a malformed byte was met. -/
  broken : Bool := false

namespace StringState

def push (s : StringState) (c : Char) : StringState :=
  { done := c :: s.done, leading := none, broken := s.broken || s.leading.isSome }

def pushUnit (s : StringState) (unit : Nat) : StringState :=
  if 0xD800 ≤ unit ∧ unit ≤ 0xDBFF then
    { s with leading := some unit, broken := s.broken || s.leading.isSome }
  else if 0xDC00 ≤ unit ∧ unit ≤ 0xDFFF then
    match s.leading with
    | some high =>
      { s with
        done := Char.ofNat (0x10000 + (high - 0xD800) * 0x400 + (unit - 0xDC00)) :: s.done
        leading := none }
    | none => { s with broken := true }
  else s.push (Char.ofNat unit)

def value? (s : StringState) : Option String :=
  if s.broken || s.leading.isSome then none else some (String.ofList s.done.reverse)

end StringState

inductive Mode where
  | between
  /-- In a number or a name, its last character first. -/
  | atom (done : List Char)
  | string (s : StringState)
  | escape (s : StringState)
  /-- In a `\u` escape, with the number of digits to come and the value of those read. -/
  | unicode (s : StringState) (left unit : Nat)

def isSpace (c : Char) : Bool :=
  c == ' ' || c == '\t' || c == '\n' || c == '\r'

def isAtomChar (c : Char) : Bool :=
  c.isAlphanum || c == '-' || c == '+' || c == '.'

/-- Splits `.digits` off the front, with `some []` for a text that does not start with a point. -/
def fraction? : List Char → Option (List Char × List Char)
  | '.' :: rest =>
    match rest.span isDecimal with
    | ([], _) => none
    | (digits, rest) => some (digits, rest)
  | rest => some ([], rest)

def exponent? : List Char → Option Int
  | [] => some 0
  | e :: rest =>
    if e == 'e' || e == 'E' then
      let (negative, digits) := match rest with
        | '-' :: r => (true, r)
        | '+' :: r => (false, r)
        | r => (false, r)
      if digits.isEmpty || !digits.all isDecimal then none
      else some (if negative then -(ofDigits 10 digits : Int) else ofDigits 10 digits)
    else none

def number? (cs : List Char) : Option Json := do
  let (negative, rest) := match cs with
    | '-' :: r => (true, r)
    | r => (false, r)
  let (whole, tail) := rest.span isDecimal
  if whole.isEmpty || (whole.head? == some '0' && whole.length > 1) then none
  let (fraction, last) ← fraction? tail
  let exponent ← exponent? last
  let n := ofDigits 10 whole
  if exceedsScaled whole fraction exponent then some .void
  else if !tail.isEmpty || (negative && n == 0) then some .real
  else some (.int (if negative then -n else n))

def atom? (cs : List Char) : Option Json :=
  if cs == ['t', 'r', 'u', 'e'] then some (.bool true)
  else if cs == ['f', 'a', 'l', 's', 'e'] then some (.bool false)
  else if cs == ['n', 'u', 'l', 'l'] then some .null
  else number? cs

def plain? (done : List Token) (c : Char) : Option (Mode × List Token) :=
  if isSpace c then some (.between, done)
  else if c == '"' then some (.string {}, done)
  else if c == '[' then some (.between, .openArray :: done)
  else if c == ']' then some (.between, .closeArray :: done)
  else if c == '\x7b' then some (.between, .openObject :: done)
  else if c == '\x7d' then some (.between, .closeObject :: done)
  else if c == ',' then some (.between, .comma :: done)
  else if c == ':' then some (.between, .colon :: done)
  else if isAtomChar c then some (.atom [c], done)
  else none

def unescape? (c : Char) : Option Char :=
  match c with
  | '"' => some '"'
  | '\\' => some '\\'
  | '/' => some '/'
  | 'b' => some '\x08'
  | 'f' => some '\x0c'
  | 'n' => some '\n'
  | 'r' => some '\r'
  | 't' => some '\t'
  | _ => none

def Mode.step? (mode : Mode) (done : List Token) (c : Char) : Option (Mode × List Token) :=
  match mode with
  | .between => plain? done c
  | .atom cs =>
    if isAtomChar c then some (.atom (c :: cs), done)
    else do plain? (.scalar (← atom? cs.reverse) :: done) c
  | .string s =>
    if c == '"' then some (.between, .string s.value? :: done)
    else if c == '\\' then some (.escape s, done)
    else if c.toNat < 0x20 then none
    else some (.string (s.push c), done)
  | .escape s =>
    if c == 'u' then some (.unicode s 4 0, done)
    else do return (.string (s.push (← unescape? c)), done)
  | .unicode s left unit => do
    let unit := unit * 16 + (← digitValue? c)
    if left ≤ 1 then return (.string (s.pushUnit unit), done)
    else return (.unicode s (left - 1) unit, done)

def Mode.finish? (mode : Mode) (done : List Token) : Option (List Token) :=
  match mode with
  | .between => some done.reverse
  | .atom cs => do return (.scalar (← atom? cs.reverse) :: done).reverse
  | _ => none

/-- The tokens of a text, with `done` those before it, the last one first. -/
def scan (mode : Mode) (done : List Token) : List Char → Option (List Token)
  | [] => mode.finish? done
  | c :: rest =>
    match mode.step? done c with
    | none => none
    | some (mode, done) => scan mode done rest

/-- A byte that is part of no character leaves a string without a value, and may stand nowhere
else. -/
def Mode.spoil? : Mode → Option Mode
  | .string s => some (.string { s with broken := true })
  | _ => none

def scanUnits (mode : Mode) (done : List Token) : List (Option Char) → Option (List Token)
  | [] => mode.finish? done
  | some c :: rest =>
    match mode.step? done c with
    | none => none
    | some (mode, done) => scanUnits mode done rest
  | none :: rest =>
    match mode.spoil? with
    | none => none
    | some mode => scanUnits mode done rest

end Wordcode.Json
