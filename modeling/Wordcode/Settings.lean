import Wordcode.Text.Blank
import Wordcode.Toml.Reader

namespace Wordcode

structure Settings where
  /-- The name of the opcode that reads constants and slots. -/
  memoryOpcode : String := "read-memory"
  /-- Whether decompiled text is indented. -/
  pretty : Bool := true
  /-- Blanks for each level. -/
  indent : Nat := 2
deriving DecidableEq, Repr

namespace Settings

inductive Error where
  | parse
  | emptyMemoryOpcode
  | wideIndent (indent : Nat)
deriving DecidableEq, Repr

def Error.message? : Error → Option String
  | .parse => none
  | .emptyMemoryOpcode => some "Invalid config: memory_opcode must not be empty"
  | .wideIndent indent => some s!"Invalid config: format.indent must be at most 16, found {indent}"

def maxIndent : Nat := 16

def validate (s : Settings) : Except Error Settings :=
  if (trim s.memoryOpcode.toList).isEmpty then .error .emptyMemoryOpcode
  else if maxIndent < s.indent then .error (.wideIndent s.indent)
  else .ok s

def prettyOf? (default : Bool) : Option Toml → Option Bool
  | none => some default
  | some (.bool b) => some b
  | some _ => none

def indentOf? (default : Nat) : Option Toml → Option Nat
  | none => some default
  | some (.integer n) => if 0 ≤ n then some n.toNat else none
  | some _ => none

/-- Takes over what is set under `format`: a table, or an array of its fields in order. A date or
time counts as a table that sets nothing. -/
def withFormat? (s : Settings) : Option Toml → Option Settings
  | none => some s
  | some (.table fields) => do
    return { s with
      pretty := ← prettyOf? s.pretty (fields.lookup "pretty")
      indent := ← indentOf? s.indent (fields.lookup "indent") }
  | some (.array items) => do
    return { s with
      pretty := ← prettyOf? s.pretty items[0]?
      indent := ← indentOf? s.indent items[1]? }
  | some .moment => some s
  | some _ => none

def withMemoryOpcode? (s : Settings) : Option Toml → Option Settings
  | none => some s
  | some (.string name) => some { s with memoryOpcode := name }
  | some _ => none

def ofFields? (fields : List (String × Toml)) : Option Settings := do
  (← withMemoryOpcode? {} (fields.lookup "memory_opcode")).withFormat? (fields.lookup "format")

def read (text : String) : Except Error Settings :=
  match (Toml.read? text.toList).bind ofFields? with
  | some s => s.validate
  | none => .error .parse

end Settings

end Wordcode
