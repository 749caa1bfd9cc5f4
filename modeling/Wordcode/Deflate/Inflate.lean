import Wordcode.Deflate.Bits
import Wordcode.Deflate.CodeTree

namespace Wordcode.Deflate

/-- Least value and number of further bits of each length code from 257 on. -/
def lengthCodes : List (Nat × Nat) :=
  [(3, 0), (4, 0), (5, 0), (6, 0), (7, 0), (8, 0), (9, 0), (10, 0), (11, 1), (13, 1), (15, 1),
    (17, 1), (19, 2), (23, 2), (27, 2), (31, 2), (35, 3), (43, 3), (51, 3), (59, 3), (67, 4),
    (83, 4), (99, 4), (115, 4), (131, 5), (163, 5), (195, 5), (227, 5), (258, 0)]

def distanceCodes : List (Nat × Nat) :=
  [(1, 0), (2, 0), (3, 0), (4, 0), (5, 1), (7, 1), (9, 2), (13, 2), (17, 3), (25, 3), (33, 4),
    (49, 4), (65, 5), (97, 5), (129, 6), (193, 6), (257, 7), (385, 7), (513, 8), (769, 8),
    (1025, 9), (1537, 9), (2049, 10), (3073, 10), (4097, 11), (6145, 11), (8193, 12), (12289, 12),
    (16385, 13), (24577, 13)]

def codedNumber? (codes : List (Nat × Nat)) (i : Nat) (bits : List Bool) :
    Option (Nat × List Bool) := do
  let (base, extra) ← codes[i]?
  let (n, bits) ← number? extra bits
  return (base + n, bits)

/-- Repeats bytes from the given distance behind the end; those before the start are zero. -/
def copy (distance : Nat) : Nat → Array UInt8 → Array UInt8
  | 0, out => out
  | n + 1, out =>
    let b := if distance ≤ out.size then out.getD (out.size - distance) 0 else 0
    copy distance n (out.push b)

structure Codes where
  literals : CodeTree
  distances : CodeTree

/-- Reads symbols up to the end of the block. Each takes at least one bit, so the number of bits
will do as `fuel`. -/
def symbols? (codes : Codes) : Nat → Array UInt8 → List Bool → Option (Array UInt8 × List Bool)
  | 0, _, _ => none
  | fuel + 1, out, bits =>
    match codes.literals.symbol? bits with
    | none => none
    | some (s, bits) =>
      if s < 256 then symbols? codes fuel (out.push (UInt8.ofNat s)) bits
      else if s = 256 then some (out, bits)
      else
        match codedNumber? lengthCodes (s - 257) bits with
        | none => none
        | some (length, bits) =>
          match codes.distances.symbol? bits with
          | none => none
          | some (d, bits) =>
            match codedNumber? distanceCodes d bits with
            | none => none
            | some (distance, bits) => symbols? codes fuel (copy distance length out) bits

def bytes? : Nat → Array UInt8 → List Bool → Option (Array UInt8 × List Bool)
  | 0, out, bits => some (out, bits)
  | n + 1, out, bits =>
    match number? 8 bits with
    | none => none
    | some (b, bits) => bytes? n (out.push (UInt8.ofNat b)) bits

def storedBlock? (out : Array UInt8) (bits : List Bool) : Option (Array UInt8 × List Bool) := do
  let (length, bits) ← number? 16 (align bits)
  let (check, bits) ← number? 16 bits
  if length + check ≠ 65535 then none
  bytes? length out bits

def fixedCodes? : Option Codes := do
  let literals ← CodeTree.ofLengths? (List.replicate 144 8 ++ List.replicate 112 9 ++
    List.replicate 24 7 ++ List.replicate 8 8)
  return ⟨literals, ← CodeTree.ofLengths? (List.replicate 32 5)⟩

def lengthOrder : List Nat :=
  [16, 17, 18, 0, 8, 7, 9, 6, 10, 5, 11, 4, 12, 3, 13, 2, 14, 1, 15]

def orderedLengths? : List Nat → List (Nat × Nat) → List Bool →
    Option (List (Nat × Nat) × List Bool)
  | [], done, bits => some (done, bits)
  | symbol :: order, done, bits =>
    match number? 3 bits with
    | none => none
    | some (n, bits) => orderedLengths? order ((symbol, n) :: done) bits

def repetition? (symbol : Nat) (done : List Nat) (bits : List Bool) :
    Option (Nat × Nat × List Bool) := do
  if symbol < 16 then return (1, symbol, bits)
  else if symbol = 16 then
    let last ← done.head?
    let (n, bits) ← number? 2 bits
    return (3 + n, last, bits)
  else if symbol = 17 then
    let (n, bits) ← number? 3 bits
    return (3 + n, 0, bits)
  else
    let (n, bits) ← number? 7 bits
    return (11 + n, 0, bits)

/-- Reads `total` code lengths, with the last one read first in `done`. Each symbol gives at least
one, so `total` will do as `fuel`. -/
def codeLengths? (tree : CodeTree) (total : Nat) : Nat → List Nat → List Bool →
    Option (List Nat × List Bool)
  | fuel, done, bits =>
    if done.length = total then some (done.reverse, bits)
    else
      match fuel with
      | 0 => none
      | fuel + 1 =>
        match tree.symbol? bits with
        | none => none
        | some (symbol, bits) =>
          match repetition? symbol done bits with
          | none => none
          | some (n, length, bits) =>
            if total < done.length + n then none
            else codeLengths? tree total fuel (List.replicate n length ++ done) bits

def dynamicCodes? (bits : List Bool) : Option (Codes × List Bool) := do
  let (hlit, bits) ← number? 5 bits
  let (hdist, bits) ← number? 5 bits
  let (hclen, bits) ← number? 4 bits
  let literals := hlit + 257
  let distances := hdist + 1
  if 286 < literals || 30 < distances then none
  let (given, bits) ← orderedLengths? (lengthOrder.take (hclen + 4)) [] bits
  let tree ← CodeTree.ofLengths? ((List.range 19).map fun s => (given.lookup s).getD 0)
  let total := literals + distances
  let (lengths, bits) ← codeLengths? tree total total [] bits
  let codes : Codes := ⟨← CodeTree.ofLengths? (lengths.take literals),
    ← CodeTree.ofLengths? (lengths.drop literals)⟩
  return (codes, bits)

def block? (kind : Nat) (out : Array UInt8) (bits : List Bool) :
    Option (Array UInt8 × List Bool) :=
  match kind with
  | 0 => storedBlock? out bits
  | 1 => do symbols? (← fixedCodes?) bits.length out bits
  | 2 => do
    let (codes, bits) ← dynamicCodes? bits
    symbols? codes bits.length out bits
  | _ => none

/-- Reads blocks up to one that is marked as the last. Each takes at least three bits, so the
number of bits will do as `fuel`. -/
def blocks? : Nat → Array UInt8 → List Bool → Option (Array UInt8 × List Bool)
  | 0, _, _ => none
  | fuel + 1, out, bits =>
    match number? 1 bits with
    | none => none
    | some (last, bits) =>
      match number? 2 bits with
      | none => none
      | some (kind, bits) =>
        match block? kind out bits with
        | none => none
        | some (out, bits) => if last = 1 then some (out, bits) else blocks? fuel out bits

/-- The bytes of a compressed stream. What follows its end is ignored. -/
def inflate? (bytes : List UInt8) : Option (List UInt8) := do
  let bits := bitsOf bytes
  let (out, _) ← blocks? bits.length #[] bits
  return out.toList

/-- Two sums modulo 65521, that of the bytes from one on and that of its values. -/
def adler32 (bytes : List UInt8) : Nat :=
  let (a, b) := bytes.foldl (fun (a, b) byte =>
    let a := (a + byte.toNat) % 65521
    (a, (b + a) % 65521)) (1, 0)
  b * 65536 + a

/-- A compressed stream with two bytes in front, which are checked, and the checksum of the
contents behind. -/
def zlib? : List UInt8 → Option (List UInt8)
  | method :: flags :: rest => do
    if (method.toNat * 256 + flags.toNat) % 31 ≠ 0 || method.toNat % 16 ≠ 8 ||
        7 < method.toNat / 16 || flags.toNat.testBit 5 then none
    let bits := bitsOf rest
    let (out, bits) ← blocks? bits.length #[] bits
    let (sum, _) ← bytes? 4 #[] (align bits)
    let out := out.toList
    if sum.toList.foldl (fun n b => n * 256 + b.toNat) 0 = adler32 out then some out else none
  | _ => none

def decompress? (bytes : List UInt8) : Option (List UInt8) :=
  (zlib? bytes).or (inflate? bytes)

end Wordcode.Deflate
