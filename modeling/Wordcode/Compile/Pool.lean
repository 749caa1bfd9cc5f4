import Std.Data.TreeMap
import Wordcode.Instruction.Basic
import Wordcode.Text.Digits

namespace Wordcode

/-- The distinct constants met so far, in the order in which they came. -/
structure Pool where
  values : Array Nat := #[]
  /-- The place of each value. -/
  places : Std.TreeMap Nat Nat := ∅

namespace Pool

/-- The place of a value, which is added if it is new. There is no place for new values behind the
last index that can be read. -/
def add (pool : Pool) (value : Nat) : Option (Pool × Nat) :=
  match pool.places.get? value with
  | some i => some (pool, i)
  | none =>
    let i := pool.values.size
    if i ≤ Instruction.maxIndex then
      some (⟨pool.values.push value, pool.places.insert value i⟩, i)
    else none

def place (pool : Pool) (value : Nat) : Option Nat × Pool :=
  match pool.add value with
  | some (pool, i) => (some i, pool)
  | none => (none, pool)

def get? (pool : Pool) (i : Nat) : Option Nat :=
  pool.values[i]?

def size (pool : Pool) : Nat :=
  pool.values.size

def texts (pool : Pool) : List String :=
  pool.values.toList.map decimal

end Pool

end Wordcode
