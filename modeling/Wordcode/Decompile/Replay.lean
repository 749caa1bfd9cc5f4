import Wordcode.Decompile.Stack

namespace Wordcode

namespace Decompile

structure Context where
  table : Table
  /-- The number of the opcode that reads memory, if the table has it. -/
  memory : Option UInt16
  code : Bytecode

def word (ctx : Context) (source offset : Nat) (s : Stack) (i : Instruction) :
    Except DecompileError Stack :=
  if ctx.memory = some i.opcode then s.readMemory ctx.code i.operand
  else
    match ctx.table.get? i.opcode with
    | none => .error (.unknownOpcode source offset i.opcode)
    | some op => s.apply op i.operand

def words (ctx : Context) (source offset : Nat) (s : Stack) :
    List Instruction → Except DecompileError Stack
  | [] => .ok s
  | i :: rest =>
    match word ctx source offset s i with
    | .error err => .error err
    | .ok s => words ctx source (offset + Instruction.size) s rest

def source (ctx : Context) (index : Nat) (bytes : List UInt8) :
    Except DecompileError (List Clause) :=
  if bytes.length % Instruction.size ≠ 0 then .error (.misaligned index bytes.length)
  else
    match words ctx index 0 {} (Instruction.decode bytes) with
    | .error err => .error err
    | .ok s => .ok s.clauses

def sources (ctx : Context) (index : Nat) (done : Script) :
    List (List UInt8) → Except DecompileError Script
  | [] => .ok done.reverse
  | bytes :: rest =>
    match source ctx index bytes with
    | .error err => .error err
    | .ok clauses => sources ctx (index + 1) (clauses :: done) rest

end Decompile

namespace Bytecode

/-- The sources of code, where constants and slots are read by the opcode called `memory`. -/
def script (code : Bytecode) (table : Table) (memory : String) : Except DecompileError Script :=
  Decompile.sources ⟨table, (table.lookup memory).map (·.1), code⟩ 0 [] code.sources

def decompile (code : Bytecode) (table : Table) (memory : String) :
    Except DecompileError String :=
  (code.script table memory).map Script.text

end Bytecode

end Wordcode
