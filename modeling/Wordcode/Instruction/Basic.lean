import Wordcode.Text.Digits

namespace Wordcode

structure Instruction where
  opcode : UInt16
  operand : UInt16
deriving DecidableEq, Repr, Inhabited

inductive Region where
  | stack
  | constant
deriving DecidableEq, Repr

def Region.name : Region → String
  | .stack => "Stack"
  | .constant => "Constant"

namespace Instruction

def size : Nat := 4

def maxIndex : Nat := 32767

def text (i : Instruction) : String :=
  "0x" ++ hexadecimal 4 i.opcode.toNat ++ " 0x" ++ hexadecimal 4 i.operand.toNat

end Instruction

namespace Region

/-- The lowest bit of a memory operand tells the region and the others are the index. -/
def operand? (region : Region) (index : Nat) : Option UInt16 :=
  if index ≤ Instruction.maxIndex then
    some (UInt16.ofNat (2 * index + if region = .constant then 1 else 0))
  else none

def ofOperand (operand : UInt16) : Region × Nat :=
  (if operand.toNat % 2 = 1 then .constant else .stack, operand.toNat / 2)

end Region

def Instruction.memory? (opcode : UInt16) (region : Region) (index : Nat) : Option Instruction :=
  (region.operand? index).map (⟨opcode, ·⟩)

end Wordcode
