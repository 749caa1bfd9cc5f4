import Wordcode.Document.Basic
import Wordcode.Text.Blank
import Wordcode.Text.Checked

namespace Wordcode

/-- The characters of a text before the index `limit`, which are read by their indices. -/
structure Scanner where
  text : Array Char
  limit : Nat
deriving Repr

namespace Scanner

def get (s : Scanner) (i : Nat) : Checked Char :=
  Checked.get s.text i

def stands (s : Scanner) (c : Char) (i : Nat) : Checked Bool := do
  if i < s.limit then return (← s.get i) == c else return false

/-- The first index from `i` on whose character does not have the property, or `limit`. -/
def skip (s : Scanner) (p : Char → Bool) (i : Nat) : Checked Nat := do
  if i < s.limit then
    if p (← s.get i) then s |>.skip p (i + 1) else return i
  else return i
partial_fixpoint

def run (s : Scanner) (p : Char → Bool) (i : Nat) : Checked (Label × Nat) := do
  let k ← s.skip p i
  let name ← Checked.slice s.text i k
  let last ← Checked.sub k 1
  return (⟨String.ofList name, ⟨i, last⟩⟩, k)

/-- The index behind the last character before `stop` that is not blank, or `start`. -/
def skipBack (s : Scanner) (start stop : Nat) : Checked Nat := do
  if start < stop then
    let last ← Checked.sub stop 1
    if isBlank (← s.get last) then s |>.skipBack start last else return stop
  else return stop
partial_fixpoint

/-- The indices of the marks where the depth is zero. The indices before `i` are given from the
last to the first. -/
def marksFrom (s : Scanner) (nest : Nat → Char → Nat) (mark : Char) (i depth : Nat)
    (found : List Nat) : Checked (List Nat) := do
  if i < s.limit then
    let c ← s.get i
    if c == mark && depth == 0 then s |>.marksFrom nest mark (i + 1) depth (i :: found)
    else s |>.marksFrom nest mark (i + 1) (nest depth c) found
  else return found.reverse
partial_fixpoint

def labelsFrom (s : Scanner) (i : Nat) (done : List Label) : Checked (List Label) := do
  if i < s.limit then
    if isBlank (← s.get i) then s |>.labelsFrom (i + 1) done
    else
      let (label, k) ← s.run (!isBlank ·) i
      s |>.labelsFrom k (label :: done)
  else return done.reverse
partial_fixpoint

def findEnd (s : Scanner) (i : Nat) : Checked (Option Nat) := do
  if i < s.limit then
    let c ← s.get i
    let d ← s.get (i + 1)
    if c == '*' && d == '/' then return some i else s |>.findEnd (i + 1)
  else return none
partial_fixpoint

end Scanner

end Wordcode
