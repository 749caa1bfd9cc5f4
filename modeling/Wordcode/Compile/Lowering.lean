import Wordcode.Bytecode
import Wordcode.Compile.Pool
import Wordcode.Document.Reader

namespace Wordcode

inductive CompileError where
  | diagnostics (problems : List Problem)
  | unresolved (position : Position)
  | unresolvedAlias (name : String) (position : Position)
  | missingMemoryOpcode (name : String)
  | tooManyConstants
  | invalidMemoryRead (region : Region) (index : Nat) (position : Position)
  | stackSlotOutOfRange (slot : Nat)
deriving DecidableEq, Repr

def CompileError.message : CompileError → String
  | .diagnostics problems => s!"Document has {problems.length} problem(s)"
  | .unresolved position => "Unresolved node at " ++ position.text
  | .unresolvedAlias name position =>
    s!"Alias '{name}' at " ++ position.text ++ " is not bound to a stack slot"
  | .missingMemoryOpcode name => s!"Opcode table has no memory read opcode '{name}'"
  | .tooManyConstants => "Too many constants (max 32768)"
  | .invalidMemoryRead region index position =>
    "Memory read at " ++ position.text ++ " of " ++ region.name ++
      s!" index {index}, which does not exist yet"
  | .stackSlotOutOfRange slot => s!"Stack slot {slot} is out of range (max 32767)"

structure Code where
  pool : Pool := {}
  /-- The words of the source, the last one first. -/
  words : List Instruction := []

namespace Code

def emit (code : Code) (i : Instruction) : Code :=
  { code with words := i :: code.words }

def constant (memory : UInt16) (code : Code) (value : Nat) : Except CompileError Code :=
  match code.pool.add value with
  | none => .error .tooManyConstants
  | some (pool, index) =>
    match Instruction.memory? memory .constant index with
    | none => .error .tooManyConstants
    | some i => .ok ({ code with pool := pool }.emit i)

def reference (memory : UInt16) (scope : Scope) (code : Code) (name : String)
    (position : Position) : Except CompileError Code :=
  match scope.slot? name with
  | none => .error (.unresolvedAlias name position)
  | some slot =>
    match Instruction.memory? memory .stack slot with
    | none => .error (.stackSlotOutOfRange slot)
    | some i => .ok (code.emit i)

/-- Whether a memory read finds its constant in the pool, or its slot among those of finished
statements. -/
def canRead (scope : Scope) (code : Code) (region : Region) (index : Nat) : Bool :=
  match region with
  | .constant => index < code.pool.size
  | .stack => index < scope.count

def call (memory : UInt16) (scope : Scope) (code : Code) (head : Call) : Except CompileError Code :=
  match head.opcode, head.operand with
  | some opcode, some operand =>
    let (region, index) := Region.ofOperand operand
    if opcode = memory && !code.canRead scope region index then
      .error (.invalidMemoryRead region index head.position)
    else .ok (code.emit ⟨opcode, operand⟩)
  | _, _ => .error (.unresolved head.position)

mutual

def node (memory : UInt16) (scope : Scope) (code : Code) : Node → Except CompileError Code
  | .value _ none position _ => .error (.unresolved position)
  | .value _ (some n) _ _ => code.constant memory n
  | .reference name position _ => code.reference memory scope name position
  | .call head parameters _ =>
    match nodes memory scope code parameters with
    | .error err => .error err
    | .ok code => code.call memory scope head

def nodes (memory : UInt16) (scope : Scope) (code : Code) : List Node → Except CompileError Code
  | [] => .ok code
  | n :: rest =>
    match node memory scope code n with
    | .error err => .error err
    | .ok code => nodes memory scope code rest

end

def statements (memory : UInt16) (scope : Scope) (code : Code) :
    List Statement → Except CompileError Code
  | [] => .ok code
  | s :: rest =>
    match code.nodes memory scope s.nodes with
    | .error err => .error err
    | .ok code => statements memory (scope.declareAll s.labels) code rest

def source (memory : UInt16) (pool : Pool) (s : Source) :
    Except CompileError (List Instruction × Pool) :=
  match statements memory {} { pool := pool } s.statements with
  | .error err => .error err
  | .ok code => .ok (code.words.reverse, code.pool)

def sources (memory : UInt16) (pool : Pool) (done : List (List Instruction)) :
    List Source → Except CompileError (List (List Instruction) × Pool)
  | [] => .ok (done.reverse, pool)
  | s :: rest =>
    match source memory pool s with
    | .error err => .error err
    | .ok (words, pool) => sources memory pool (words :: done) rest

end Code

/-- Compiles a document without problems and unresolved nodes. Constants and names are read by the
opcode called `memory`. -/
def Document.compile (d : Document) (table : Table) (memory : String) :
    Except CompileError Bytecode :=
  if !d.isValid then .error (.diagnostics d.problems)
  else
    match d.unresolved? with
    | some n => .error (.unresolved n.position)
    | none =>
      match table.lookup memory with
      | none => .error (.missingMemoryOpcode memory)
      | some (number, _) =>
        match Code.sources number {} [] d.sources with
        | .error err => .error err
        | .ok (sources, pool) => .ok ⟨sources.map Instruction.encode, pool.texts⟩

end Wordcode
