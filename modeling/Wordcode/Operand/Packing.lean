import Wordcode.Formula.Reader
import Wordcode.Operand.BitRange
import Wordcode.Operand.ValidRange

namespace Wordcode

structure Field where
  value : Nat
  bits : BitRange
  /-- Gives the number to store for a value. -/
  formula : Option Formula := none
  /-- The values accepted; all of them if there is no list. -/
  valid : Option (List ValidRange) := none
deriving DecidableEq, Repr

namespace Field

def accepts (f : Field) : Bool :=
  match f.valid with
  | none => true
  | some ranges => ranges.any (·.contains f.value)

/-- The value or its image. A formula is applied only to values that the bits could hold, so that
`Formula.invert` finds them again. -/
def image? (f : Field) : Option Int :=
  match f.formula with
  | none => some f.value
  | some formula => if f.value ≤ f.bits.maxValue then (formula.eval f.value).toOption else none

def stored? (f : Field) : Option Nat :=
  if f.accepts then
    match f.image? with
    | some n => if 0 ≤ n ∧ n ≤ f.bits.maxValue then some n.toNat else none
    | none => none
  else none

def rejected (fields : List Field) : List Nat :=
  fields.zipIdx.filterMap fun (f, i) => if f.stored?.isNone then some i else none

def union (fields : List Field) : Nat :=
  fields.foldl (fun operand f => operand ||| f.stored?.getD 0 <<< f.bits.lo) 0

def pack (fields : List Field) : Except (List Nat) UInt16 :=
  match rejected fields with
  | [] => .ok (UInt16.ofNat (union fields))
  | indices => .error indices

end Field

end Wordcode
