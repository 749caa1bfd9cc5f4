namespace Wordcode

/-- The argument values `min` to `max`, both included. -/
structure ValidRange where
  min : Nat
  max : Nat
  min_le_max : min ≤ max := by omega
deriving Repr

instance : DecidableEq ValidRange := fun r s =>
  decidable_of_iff (r.min = s.min ∧ r.max = s.max) (by cases r; cases s; simp)

namespace ValidRange

inductive Error where
  | reversed (min max : Nat)
  | length (n : Nat)
deriving DecidableEq, Repr

def Error.message : Error → String
  | .reversed min max => s!"valid range [{min}, {max}] has min > max"
  | .length n => s!"valid range must have 1 or 2 elements, found {n}"

/-- A range is written as its bounds, or as one number when they are equal. -/
def ofList : List Nat → Except Error ValidRange
  | [v] => .ok ⟨v, v, Nat.le_refl v⟩
  | [min, max] => if h : min ≤ max then .ok ⟨min, max, h⟩ else .error (.reversed min max)
  | ns => .error (.length ns.length)

def toList (r : ValidRange) : List Nat :=
  if r.min = r.max then [r.min] else [r.min, r.max]

def contains (r : ValidRange) (v : Nat) : Bool :=
  r.min ≤ v && v ≤ r.max

end ValidRange

end Wordcode
