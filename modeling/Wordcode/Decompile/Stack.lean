import Std.Data.TreeSet
import Wordcode.Bytecode
import Wordcode.Opcode.Table
import Wordcode.Script

namespace Wordcode

inductive DecompileError where
  | misaligned (source length : Nat)
  | unknownOpcode (source offset : Nat) (opcode : UInt16)
  | corruptOperand (name : String) (operand : UInt16)
  | stackUnderflow (name : String) (needed available : Nat)
  | constantOutOfRange (index : Nat)
  | invalidStackRead (index : Nat)
  | invalidConstant (index : Nat) (cause : Bytecode.Error)
deriving DecidableEq, Repr

def DecompileError.message : DecompileError → String
  | .misaligned source length => s!"Source {source} has length {length}, not a multiple of 4"
  | .unknownOpcode source offset opcode =>
    s!"Unknown opcode {opcode.toNat} at byte {offset} of source {source}"
  | .corruptOperand name operand =>
    "Corrupt operand 0x" ++ hexadecimal 4 operand.toNat ++ " for " ++ name
  | .stackUnderflow name needed available =>
    s!"{name} needs {needed} input(s) but only {available} value(s) are available"
  | .constantOutOfRange index => s!"Constant index {index} is out of range"
  | .invalidStackRead index => s!"Invalid read of stack slot {index}"
  | .invalidConstant index cause => s!"Constant {index} is invalid: " ++ cause.message

namespace Decompile

inductive Entry where
  /-- The term that makes the first of its outputs. -/
  | value (t : Term)
  /-- A further output of the term below. -/
  | placeholder
  /-- A term without outputs, which takes no slot. -/
  | effect (t : Term)

def Entry.isValue : Entry → Bool
  | .value _ => true
  | _ => false

def Entry.term? : Entry → Option Term
  | .value t => some t
  | .effect t => some t
  | .placeholder => none

def slotName (slot : Nat) : String :=
  "slot-" ++ decimal slot

structure Stack where
  /-- The topmost entry first. -/
  entries : List Entry := []
  /-- The number of entries that take a slot. -/
  slots : Nat := 0
  /-- The slots that were read. -/
  referenced : Std.TreeSet Nat := ∅

namespace Stack

def pushValue (s : Stack) (t : Term) : Stack :=
  { s with entries := .value t :: s.entries, slots := s.slots + 1 }

def pushTerm (s : Stack) (t : Term) (outputs : Nat) : Stack :=
  if outputs = 0 then { s with entries := .effect t :: s.entries }
  else
    { s with
      entries := List.replicate (outputs - 1) .placeholder ++ .value t :: s.entries
      slots := s.slots + outputs }

def literal (value : Nat) : Term :=
  .literal (if value = Literal.maxValue then "max-uint256" else decimal value)

def readMemory (code : Bytecode) (s : Stack) (operand : UInt16) : Except DecompileError Stack :=
  match Region.ofOperand operand with
  | (.constant, index) =>
    match code.constant index with
    | .ok value => .ok (s.pushValue (literal value))
    | .error (.constantOutOfRange index) => .error (.constantOutOfRange index)
    | .error cause => .error (.invalidConstant index cause)
  | (.stack, index) =>
    if index < s.slots then
      let s := { s with referenced := s.referenced.insert index }
      .ok (s.pushValue (.reference (slotName index)))
    else .error (.invalidStackRead index)

/-- Takes the topmost entries off the stack, which have to be values that were not read, and gives
their terms from the lowest to the topmost. -/
def pop (s : Stack) (name : String) (count : Nat) : Except DecompileError (List Term × Stack) :=
  let top := s.entries.take count
  if top.length = count && top.all (·.isValue) then
    match (List.range' (s.slots - count) count).find? s.referenced.contains with
    | some index => .error (.invalidStackRead index)
    | none =>
      .ok (top.reverse.filterMap (·.term?),
        { s with entries := s.entries.drop count, slots := s.slots - count })
  else .error (.stackUnderflow name count (s.entries.takeWhile (·.isValue)).length)

def apply (s : Stack) (op : Opcode) (operand : UInt16) : Except DecompileError Stack :=
  match op.inputCount operand, op.outputCount operand with
  | some inputs, some outputs =>
    match op.unpackOperand operand inputs with
    | none => .error (.corruptOperand op.name operand)
    | some arguments =>
      match s.pop op.name inputs with
      | .error err => .error err
      | .ok (parameters, s) => .ok (s.pushTerm (.call op.name arguments parameters) outputs)
  | _, _ => .error (.corruptOperand op.name operand)

end Stack

structure Clauses where
  /-- The last one first. -/
  done : List Clause := []
  /-- The names of the open statement, the last one first. -/
  names : List String := []
  /-- The terms of the open statement, the last one first. -/
  terms : List Term := []
  /-- Whether the next term starts a new statement. -/
  split : Bool := false
  slot : Nat := 0

namespace Clauses

def close (c : Clauses) : Clauses :=
  { c with
    done := ⟨c.names.reverse, c.terms.reverse⟩ :: c.done
    names := []
    terms := []
    split := false }

def term (c : Clauses) (t : Term) : Clauses :=
  let c := if c.split then c.close else c
  { c with terms := t :: c.terms }

/-- A slot that was read has a name and ends its statement, so that reads are of earlier
statements. -/
def output (referenced : Std.TreeSet Nat) (c : Clauses) : Clauses :=
  if referenced.contains c.slot then
    { c with names := slotName c.slot :: c.names, split := true, slot := c.slot + 1 }
  else { c with names := "_" :: c.names, slot := c.slot + 1 }

def step (referenced : Std.TreeSet Nat) (c : Clauses) : Entry → Clauses
  | .value t => (c.term t).output referenced
  | .placeholder => c.output referenced
  | .effect t => c.term t

def finish (c : Clauses) : List Clause :=
  let c := if c.names.isEmpty && c.terms.isEmpty then c else c.close
  c.done.reverse

end Clauses

def Stack.clauses (s : Stack) : List Clause :=
  (s.entries.reverse.foldl (Clauses.step s.referenced) {}).finish

end Decompile

end Wordcode
