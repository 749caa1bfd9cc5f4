import Wordcode.Instruction.Basic

namespace Wordcode

def halfBytes (v : UInt16) : List UInt8 :=
  [UInt8.ofNat (v.toNat / 256), UInt8.ofNat (v.toNat % 256)]

def halfOfBytes (high low : UInt8) : UInt16 :=
  UInt16.ofNat (high.toNat * 256 + low.toNat)

namespace Instruction

def bytes (i : Instruction) : List UInt8 :=
  halfBytes i.opcode ++ halfBytes i.operand

def encode (is : List Instruction) : List UInt8 :=
  is.flatMap bytes

end Instruction

inductive Emission where
  | half (v : UInt16)
  | word (i : Instruction)
  | memory (opcode : UInt16) (region : Region) (index : Nat)
deriving DecidableEq, Repr

/-- The bytes to append; none for a memory read whose index is too large. -/
def Emission.bytes? : Emission → Option (List UInt8)
  | .half v => some (halfBytes v)
  | .word i => some i.bytes
  | .memory opcode region index => (Instruction.memory? opcode region index).map (·.bytes)

def Emission.emit (buffer : List UInt8) (e : Emission) : Bool × List UInt8 :=
  match e.bytes? with
  | some bytes => (true, buffer ++ bytes)
  | none => (false, buffer)

inductive DecodeError where
  | unexpectedEnd (offset : Nat)
  | misaligned (length : Nat)
deriving DecidableEq, Repr

def DecodeError.message : DecodeError → String
  | .unexpectedEnd offset => s!"Unexpected end of bytecode at offset {offset}"
  | .misaligned length => s!"Bytecode length {length} is not a multiple of 4"

structure Cursor where
  position : Nat
  rest : List UInt8
deriving DecidableEq, Repr

namespace Cursor

def start (buffer : List UInt8) : Cursor :=
  ⟨0, buffer⟩

def aligned (buffer : List UInt8) : Except DecodeError Cursor :=
  if buffer.length % Instruction.size = 0 then .ok (start buffer)
  else .error (.misaligned buffer.length)

def more (c : Cursor) : Bool :=
  !c.rest.isEmpty

def half (c : Cursor) : Except DecodeError (UInt16 × Cursor) :=
  match c.rest with
  | high :: low :: rest => .ok (halfOfBytes high low, ⟨c.position + 2, rest⟩)
  | _ => .error (.unexpectedEnd c.position)

def word (c : Cursor) : Except DecodeError (Instruction × Cursor) :=
  match c.rest with
  | a :: b :: d :: e :: rest =>
    .ok (⟨halfOfBytes a b, halfOfBytes d e⟩, ⟨c.position + Instruction.size, rest⟩)
  | _ => .error (.unexpectedEnd c.position)

def next? (c : Cursor) : Option (Except DecodeError (Instruction × Cursor)) :=
  if c.more then some c.word else none

/-- Reads the next word and goes on behind it. A read that fails leaves the cursor where it is. -/
def next (c : Cursor) : Option (Except DecodeError Instruction) × Cursor :=
  match c.next? with
  | none => (none, c)
  | some (.error err) => (some (.error err), c)
  | some (.ok (i, c)) => (some (.ok i), c)

end Cursor

namespace Instruction

def decodeInto (done : List Instruction) : List UInt8 → List Instruction
  | a :: b :: d :: e :: rest => decodeInto (⟨halfOfBytes a b, halfOfBytes d e⟩ :: done) rest
  | _ => done.reverse

/-- The words of a buffer; bytes at the end that fill no word are left out. -/
def decode (buffer : List UInt8) : List Instruction :=
  decodeInto [] buffer

end Instruction

end Wordcode
