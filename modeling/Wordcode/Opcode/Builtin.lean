import Wordcode.Opcode.Table

namespace Wordcode

/-! The opcodes that are known without loading a table. -/

namespace Builtin

def oneOrMore : List OperandItem :=
  [{ name := "inputs", bits := { lo := 0, hi := 7 }, valid := some [{ min := 1, max := 255 }] }]

def twoOrMore : List OperandItem :=
  [{ name := "inputs", bits := { lo := 0, hi := 7 }, valid := some [{ min := 2, max := 255 }] }]

def minusOne : Formula :=
  ⟨"arg - 1", .binary .sub .var (.number 1)⟩

def opcodes : List Opcode := [
  { name := "read-memory"
    desc := "Takes a value from the stack or the constants and pushes it to the top of the stack."
    operand := [
      { name := "index"
        desc := "Position of the value in its memory region."
        bits := { lo := 1, hi := 15 } },
      { name := "type"
        desc := "0 for a stack slot, 1 for a constant."
        bits := { lo := 0, hi := 0 } }]
    inputs := .fixed 0
    outputs := .fixed 1 },
  { name := "add"
    desc := "Adds all inputs together."
    aliases := ["sum"]
    operand := twoOrMore
    inputs := .computed { lo := 0, hi := 7 } none [{ name := "value", desc := "Values to add." }]
    outputs := .fixed 1 },
  { name := "sub"
    desc := "Subtracts all inputs from the first input."
    aliases := ["minus"]
    operand := twoOrMore
    inputs := .computed { lo := 0, hi := 7 } none [{ name := "value" }]
    outputs := .fixed 1 },
  { name := "mul"
    desc := "Multiplies all inputs together."
    aliases := ["product"]
    operand := twoOrMore
    inputs := .computed { lo := 0, hi := 7 } none [{ name := "value" }]
    outputs := .fixed 1 },
  { name := "div"
    desc := "Divides the first input by all other inputs."
    operand := twoOrMore
    inputs := .computed { lo := 0, hi := 7 } none [{ name := "value" }]
    outputs := .fixed 1 },
  { name := "mod"
    desc := "Modulo of the first input by all other inputs."
    operand := twoOrMore
    inputs := .computed { lo := 0, hi := 7 } none [{ name := "value" }]
    outputs := .fixed 1 },
  { name := "exp"
    desc := "Raises the first input to the power of all other inputs."
    aliases := ["pow", "power"]
    operand := twoOrMore
    inputs := .computed { lo := 0, hi := 7 } none [{ name := "value" }]
    outputs := .fixed 1 },
  { name := "min"
    desc := "Smallest of all inputs."
    operand := twoOrMore
    inputs := .computed { lo := 0, hi := 7 } none [{ name := "value" }]
    outputs := .fixed 1 },
  { name := "max"
    desc := "Largest of all inputs."
    operand := twoOrMore
    inputs := .computed { lo := 0, hi := 7 } none [{ name := "value" }]
    outputs := .fixed 1 },
  { name := "equal-to"
    desc := "1 if both inputs are equal, else 0."
    aliases := ["eq"]
    operand := []
    inputs := .listed [{ name := "first" }, { name := "second" }]
    outputs := .fixed 1 },
  { name := "greater-than"
    desc := "1 if the first input is greater than the second, else 0."
    aliases := ["gt"]
    operand := []
    inputs := .listed [{ name := "first" }, { name := "second" }]
    outputs := .fixed 1 },
  { name := "less-than"
    desc := "1 if the first input is less than the second, else 0."
    aliases := ["lt"]
    operand := []
    inputs := .listed [{ name := "first" }, { name := "second" }]
    outputs := .fixed 1 },
  { name := "is-zero"
    desc := "1 if the input is zero, else 0."
    operand := []
    inputs := .fixed 1
    outputs := .fixed 1 },
  { name := "every"
    desc := "Last input if every input is non-zero, else 0."
    aliases := ["all"]
    operand := oneOrMore
    inputs := .computed { lo := 0, hi := 7 } none [{ name := "condition" }]
    outputs := .fixed 1 },
  { name := "any"
    desc := "First non-zero input, else 0."
    operand := oneOrMore
    inputs := .computed { lo := 0, hi := 7 } none [{ name := "condition" }]
    outputs := .fixed 1 },
  { name := "if"
    desc := "Second input if the first is non-zero, else the third."
    aliases := ["eager-if"]
    operand := []
    inputs := .listed [{ name := "condition" }, { name := "then" }, { name := "else" }]
    outputs := .fixed 1 },
  { name := "ensure"
    desc := "Reverts unless every input is non-zero."
    operand := oneOrMore
    inputs := .computed { lo := 0, hi := 7 } none [{ name := "condition" }]
    outputs := .fixed 0 },
  { name := "block-timestamp"
    desc := "Timestamp of the current block."
    aliases := ["now"]
    operand := []
    inputs := .fixed 0
    outputs := .fixed 1 },
  { name := "block-number"
    desc := "Number of the current block."
    operand := []
    inputs := .fixed 0
    outputs := .fixed 1 },
  { name := "chainlink-price"
    desc := "Price from a Chainlink feed scaled to 18 decimals."
    operand := []
    inputs := .listed [{ name := "feed" }, { name := "stale-after" }]
    outputs := .fixed 1 },
  { name := "erc20-balance-of"
    desc := "ERC20 token balance of an account."
    operand := []
    inputs := .listed [{ name := "token" }, { name := "account" }]
    outputs := .fixed 1 },
  { name := "hash"
    desc := "Keccak256 hash of all inputs."
    operand := oneOrMore
    inputs := .computed { lo := 0, hi := 7 } none [{ name := "value" }]
    outputs := .fixed 1 },
  { name := "scale-18"
    desc := "Rescales a fixed point value to 18 decimals."
    operand := [
      { name := "decimals"
        desc := "Decimals of the input value."
        bits := { lo := 1, hi := 8 } },
      { name := "rounding"
        desc := "0 rounds down, 1 rounds up."
        bits := { lo := 0, hi := 0 } }]
    inputs := .fixed 1
    outputs := .fixed 1 },
  { name := "context"
    desc := "Reads a value from the caller provided context grid."
    operand := [
      { name := "column", bits := { lo := 8, hi := 15 } },
      { name := "row", bits := { lo := 0, hi := 7 } }]
    inputs := .fixed 0
    outputs := .fixed 1 },
  { name := "call"
    desc := "Evaluates another source with the inputs as its initial stack."
    operand := [
      { name := "inputs", bits := { lo := 0, hi := 3 } },
      { name := "source-index"
        bits := { lo := 8, hi := 15 }
        valid := some [{ min := 1, max := 255 }] },
      { name := "outputs", bits := { lo := 4, hi := 7 } }]
    inputs := .computed { lo := 0, hi := 3 } none [{ name := "input" }]
    outputs := .computed { lo := 4, hi := 7 } none },
  { name := "loop-n"
    desc := "Evaluates another source a fixed number of times, feeding outputs back as inputs."
    operand := [
      { name := "inputs", bits := { lo := 0, hi := 3 } },
      { name := "source-index"
        bits := { lo := 4, hi := 11 }
        valid := some [{ min := 1, max := 255 }] },
      { name := "loops"
        desc := "Number of iterations, stored minus one."
        bits := { lo := 12, hi := 15 }
        formula := some minusOne
        valid := some [{ min := 1, max := 15 }] }]
    inputs := .computed { lo := 0, hi := 3 } none [{ name := "input" }]
    outputs := .computed { lo := 0, hi := 3 } none },
  { name := "explode-32"
    desc := "Splits a value into 8 values of 32 bits each."
    operand := []
    inputs := .fixed 1
    outputs := .fixed 8 },
  { name := "get"
    desc := "Reads a value from the key value store."
    operand := []
    inputs := .listed [{ name := "key" }]
    outputs := .fixed 1 },
  { name := "set"
    desc := "Writes a value to the key value store."
    operand := []
    inputs := .listed [{ name := "key" }, { name := "value" }]
    outputs := .fixed 0 }]

end Builtin

namespace Table

def empty : Table :=
  ⟨#[], ∅⟩

def builtin : Table :=
  match ofEntries Builtin.opcodes with
  | .ok table => table
  | .error _ => empty

end Table

end Wordcode
