import Wordcode.Formula.Basic
import Wordcode.Formula.Token

namespace Wordcode.Formula

inductive ReadError where
  | unexpectedChar (c : Char) (offset : Nat)
  | unexpectedEnd
  | trailingInput (offset : Nat)
  | numberTooLarge (offset : Nat)
deriving DecidableEq, Repr

def ReadError.message : ReadError → String
  | .unexpectedChar c offset => s!"Unexpected character '{c}' at offset {offset}"
  | .unexpectedEnd => "Unexpected end of formula"
  | .trailingInput offset => s!"Trailing input at offset {offset}"
  | .numberTooLarge offset => s!"Number too large at offset {offset}"

/-- What stands to the left of an operand inside its innermost parentheses: a sum and its `+` or
`-`, then a product and its `*` or `/`, then signs. -/
structure Level where
  sum : Option (Expr × Op) := none
  product : Option (Expr × Op) := none
  minus : Nat := 0

namespace Level

def signed (minus : Nat) (e : Expr) : Expr :=
  minus.repeat Expr.neg e

def join (left : Option (Expr × Op)) (right : Expr) : Expr :=
  match left with
  | none => right
  | some (l, op) => .binary op l right

def term (level : Level) (e : Expr) : Expr :=
  join level.product (signed level.minus e)

def total (level : Level) (e : Expr) : Expr :=
  join level.sum e

end Level

inductive State where
  | operand (outer : List Level) (level : Level)
  /-- The last product so far is `term`. -/
  | operator (outer : List Level) (level : Level) (term : Expr)

namespace State

def operand? (outer : List Level) (level : Level) (t : Token) : Except ReadError State :=
  match t.lexeme with
  | .number digits =>
    let n := ofDigits 10 digits
    if n ≤ maxValue then .ok (.operator outer level (level.term (.number n)))
    else .error (.numberTooLarge t.offset)
  | .name _ => .ok (.operator outer level (level.term .var))
  | .symbol '-' => .ok (.operand outer { level with minus := level.minus + 1 })
  | .symbol '(' => .ok (.operand (level :: outer) {})
  | .symbol c => .error (.unexpectedChar c t.offset)

def operator? (outer : List Level) (level : Level) (term : Expr) (t : Token) :
    Except ReadError State :=
  match t.lexeme, outer with
  | .symbol '+', _ => .ok (.operand outer { sum := some (level.total term, .add) })
  | .symbol '-', _ => .ok (.operand outer { sum := some (level.total term, .sub) })
  | .symbol '*', _ => .ok (.operand outer { sum := level.sum, product := some (term, .mul) })
  | .symbol '/', _ => .ok (.operand outer { sum := level.sum, product := some (term, .div) })
  | .symbol ')', around :: outer => .ok (.operator outer around (around.term (level.total term)))
  | _, [] => .error (.trailingInput t.offset)
  | lexeme, _ :: _ => .error (.unexpectedChar lexeme.head t.offset)

def step (s : State) (t : Token) : Except ReadError State :=
  match s with
  | .operand outer level => operand? outer level t
  | .operator outer level term => operator? outer level term t

def finish : State → Except ReadError Expr
  | .operator [] level term => .ok (level.total term)
  | _ => .error .unexpectedEnd

end State

/-- Sums of products of signed numbers, names and sums in parentheses. Every name stands for the
one variable. -/
def Expr.read (text : List Char) : Except ReadError Expr := do
  let s ← (scan 0 .none [] text).foldlM State.step (.operand [] {})
  s.finish

end Wordcode.Formula

namespace Wordcode

structure Formula where
  source : String
  expr : Formula.Expr
deriving DecidableEq, Repr, Inhabited

namespace Formula

def read (source : String) : Except ReadError Formula :=
  match Expr.read source.toList with
  | .ok expr => .ok ⟨source, expr⟩
  | .error err => .error err

def eval (f : Formula) (value : Int) : Except EvalError Int :=
  f.expr.eval value

def takes (f : Formula) (raw stored : Nat) : Bool :=
  match f.eval raw with
  | .ok n => n == stored
  | .error _ => false

/-- The least value of `width` bits whose image is `stored`. Without a formula a value is stored
as it is. -/
def invert (f : Option Formula) (stored width : Nat) : Option Nat :=
  match f with
  | none => some stored
  | some f => (List.range (Nat.pow 2 width)).find? (f.takes · stored)

end Formula

end Wordcode
