import Wordcode.Instruction.Codec
import Wordcode.Json.Decode
import Wordcode.Json.Reader
import Wordcode.Json.Writer
import Wordcode.Literal
import Wordcode.Text.Blank
import Wordcode.Text.Hex

namespace Wordcode

/-- Compiled code: the bytes of each source and the constants they share, written as numerals. -/
structure Bytecode where
  sources : List (List UInt8) := []
  constants : List String := []
deriving DecidableEq, Repr, Inhabited

namespace Bytecode

inductive Error where
  | json
  | misaligned (source length : Nat)
  | invalidConstant (index : Nat) (cause : Literal.Error)
  | constantOutOfRange (index : Nat)
deriving DecidableEq, Repr

def Error.message : Error → String
  | .json => "Invalid expression config JSON"
  | .misaligned source length => s!"Source {source} has length {length}, not a multiple of 4"
  | .invalidConstant index cause => s!"Constant {index} is invalid: " ++ cause.message
  | .constantOutOfRange index => s!"Constant index {index} is out of range"

def readConstant (index : Nat) (text : String) : Except Error Nat :=
  match Literal.read (trimmed text) with
  | .ok n => .ok n
  | .error cause => .error (.invalidConstant index cause)

def constant (code : Bytecode) (index : Nat) : Except Error Nat :=
  match code.constants[index]? with
  | some text => readConstant index text
  | none => .error (.constantOutOfRange index)

def misaligned? (code : Bytecode) : Option Error :=
  code.sources.zipIdx.findSome? fun (source, i) =>
    if source.length % Instruction.size = 0 then none else some (.misaligned i source.length)

def badConstant? (code : Bytecode) : Option Error :=
  code.constants.zipIdx.findSome? fun (text, i) =>
    match readConstant i text with
    | .ok _ => none
    | .error err => some err

/-- Sources are checked before constants. -/
def validate (code : Bytecode) : Except Error Unit :=
  match code.misaligned?.or code.badConstant? with
  | none => .ok ()
  | some err => .error err

def sourceText (source : List UInt8) : Json :=
  .string ("0x" ++ Hex.encode source)

def source? (v : Json) : Option (List UInt8) := do
  (Hex.decode (Hex.dropMark (← v.string?))).toOption

def toJson (code : Bytecode) : Json :=
  .object [("sources", .list sourceText code.sources), ("constants", .strings code.constants)]

def ofJson? (v : Json) : Option Bytecode := do
  match ← v.record? ["sources", "constants"] with
  | [some sources, some constants] =>
    return ⟨← sources.list? source?, ← constants.list? Json.string?⟩
  | _ => none

def write (code : Bytecode) : String :=
  code.toJson.pretty

def read (text : String) : Except Error Bytecode := do
  match (Json.read text.toList).bind ofJson? with
  | some code =>
    code.validate
    return code
  | none => throw .json

end Bytecode

end Wordcode
