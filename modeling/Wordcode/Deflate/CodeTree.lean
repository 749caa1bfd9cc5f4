namespace Wordcode.Deflate

inductive CodeTree where
  | empty
  | leaf (symbol : Nat)
  | node (zero one : CodeTree)
deriving Inhabited

namespace CodeTree

/-- Adds a symbol whose code is the lowest `length` bits of `code`, the highest of them first. -/
def insert (symbol code : Nat) : Nat → CodeTree → CodeTree
  | 0, _ => .leaf symbol
  | length + 1, tree =>
    let (zero, one) := match tree with
      | .node zero one => (zero, one)
      | _ => (.empty, .empty)
    if code.testBit length then .node zero (insert symbol code length one)
    else .node (insert symbol code length zero) one

def maxLength : Nat := 15

def symbolsOf (lengths : List Nat) (length : Nat) : List Nat :=
  lengths.zipIdx.filterMap fun (n, symbol) => if n = length then some symbol else none

/-- Codes are numbered in order of length and then of symbol. -/
def ofLengthsFrom (lengths : List Nat) : Nat → Nat → Nat → CodeTree → CodeTree
  | 0, _, _, tree => tree
  | fuel + 1, length, code, tree =>
    let symbols := symbolsOf lengths length
    let tree := symbols.zipIdx.foldl (fun t (s, i) => t.insert s (code + i) length) tree
    ofLengthsFrom lengths fuel (length + 1) (2 * (code + symbols.length)) tree

/-- The part of all codes that the given lengths use up, in units of the longest code. -/
def weight (lengths : List Nat) : Nat :=
  lengths.foldr (fun n total => (if n = 0 then 0 else Nat.pow 2 (maxLength - n)) + total) 0

/-- The code with the given length for each symbol, zero for a symbol without a code. Unless there
is at most one symbol, the codes have to use up all words. -/
def ofLengths? (lengths : List Nat) : Option CodeTree :=
  if weight lengths ≠ Nat.pow 2 maxLength && 1 < lengths.countP (0 < ·) then none
  else some (ofLengthsFrom lengths maxLength 1 0 .empty)

def symbol? : CodeTree → List Bool → Option (Nat × List Bool)
  | .empty, _ => none
  | .leaf s, bits => some (s, bits)
  | .node _ _, [] => none
  | .node zero one, b :: bits => if b then one.symbol? bits else zero.symbol? bits

end CodeTree

end Wordcode.Deflate
