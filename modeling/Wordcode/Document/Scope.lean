import Std.Data.TreeMap
import Wordcode.Document.Basic

namespace Wordcode

/-- The names bound so far in a source, with their slots on the stack. -/
structure Scope where
  slots : Std.TreeMap String Nat := ∅
  /-- The number of slots, named or not. -/
  count : Nat := 0

namespace Scope

def slot? (s : Scope) (name : String) : Option Nat :=
  s.slots.get? name

def contains (s : Scope) (name : String) : Bool :=
  s.slots.contains name

/-- Gives the next slot to a name, unless it has one already. -/
def declare (s : Scope) (l : Label) : Scope :=
  ⟨if l.isBindable && !s.contains l.name then s.slots.insert l.name s.count else s.slots,
    s.count + 1⟩

def declareAll (s : Scope) (labels : List Label) : Scope :=
  labels.foldl declare s

def duplicate (l : Label) : Problem :=
  ⟨.duplicateAlias, "duplicate alias: " ++ l.name, l.position⟩

def duplicates (s : Scope) (labels : List Label) : List Problem :=
  (labels.foldl (fun (s, problems) l =>
    (declare s l, if l.isBindable && s.contains l.name then duplicate l :: problems else problems))
    (s, ([] : List Problem))).2.reverse

end Scope

end Wordcode
