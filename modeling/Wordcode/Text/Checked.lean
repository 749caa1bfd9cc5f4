namespace Wordcode

inductive Fault where
  /-- An index, or the end of a range, that is not in the sequence. -/
  | outOfBounds (index size : Nat)
  /-- A difference that is no natural number. -/
  | underflow (a b : Nat)
deriving Repr

/-- A computation on indices. It has a result or a fault, and it is `none` if it has no end. -/
abbrev Checked := ExceptT Fault Option

namespace Checked

variable {α : Type}

def require (fault : Fault) : Option α → Checked α
  | some a => pure a
  | none => throw fault

def get (xs : Array α) (i : Nat) : Checked α :=
  require (.outOfBounds i xs.size) xs[i]?

def sub (a b : Nat) : Checked Nat :=
  if b ≤ a then pure (a - b) else throw (.underflow a b)

def slice (xs : Array α) (start stop : Nat) : Checked (List α) :=
  if stop < start then throw (.underflow stop start)
  else if xs.size < stop then throw (.outOfBounds stop xs.size)
  else pure (xs.extract start stop).toList

end Checked

end Wordcode
