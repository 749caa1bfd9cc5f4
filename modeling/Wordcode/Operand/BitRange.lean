namespace Wordcode

/-- The bits `lo` to `hi` of a 16-bit operand, both included. -/
structure BitRange where
  lo : Nat
  hi : Nat
  lo_le_hi : lo ≤ hi := by omega
  hi_lt : hi < 16 := by omega
deriving DecidableEq, Repr

namespace BitRange

inductive Error where
  | reversed (lo hi : Nat)
  | tooHigh (lo hi : Nat)
deriving DecidableEq, Repr

def Error.message : Error → String
  | .reversed lo hi => s!"bit range [{lo}, {hi}] has lo > hi"
  | .tooHigh lo hi => s!"bit range [{lo}, {hi}] exceeds the 16-bit operand"

def ofBounds (lo hi : Nat) : Except Error BitRange :=
  if h : lo ≤ hi then
    if h' : hi < 16 then .ok ⟨lo, hi, h, h'⟩ else .error (.tooHigh lo hi)
  else .error (.reversed lo hi)

def width (r : BitRange) : Nat :=
  r.hi - r.lo + 1

def maxValue (r : BitRange) : Nat :=
  Nat.pow 2 r.width - 1

def mask (r : BitRange) : Nat :=
  r.maxValue <<< r.lo

def overlaps (r s : BitRange) : Bool :=
  r.mask &&& s.mask != 0

def extract (r : BitRange) (operand : UInt16) : Nat :=
  (operand.toNat &&& r.mask) >>> r.lo

def text (r : BitRange) : String :=
  s!"[{r.lo}, {r.hi}]"

end BitRange

end Wordcode
