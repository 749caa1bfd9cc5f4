namespace Wordcode.Formula

inductive Op where
  | add
  | sub
  | mul
  | div
deriving DecidableEq, Repr

inductive Expr where
  | number (n : Nat)
  | var
  | neg (e : Expr)
  | binary (op : Op) (l r : Expr)
deriving DecidableEq, Repr, Inhabited

inductive EvalError where
  | divisionByZero
  | overflow
deriving DecidableEq, Repr

def EvalError.message : EvalError → String
  | .divisionByZero => "Division by zero"
  | .overflow => "Arithmetic overflow"

def minValue : Int := -Int.pow 2 63

def maxValue : Int := Int.pow 2 63 - 1

def checked (n : Int) : Except EvalError Int :=
  if minValue ≤ n ∧ n ≤ maxValue then .ok n else .error .overflow

/-- Division rounds toward zero. -/
def Op.apply (op : Op) (l r : Int) : Except EvalError Int :=
  match op with
  | .add => checked (l + r)
  | .sub => checked (l - r)
  | .mul => checked (l * r)
  | .div => if r = 0 then .error .divisionByZero else checked (l.tdiv r)

/-- Operands are evaluated from left to right and the first failure is the result. -/
def Expr.eval (value : Int) : Expr → Except EvalError Int
  | .number n => .ok n
  | .var => .ok value
  | .neg e =>
    match e.eval value with
    | .ok n => checked (-n)
    | .error err => .error err
  | .binary op l r =>
    match l.eval value with
    | .error err => .error err
    | .ok a =>
      match r.eval value with
      | .error err => .error err
      | .ok b => op.apply a b

end Wordcode.Formula
