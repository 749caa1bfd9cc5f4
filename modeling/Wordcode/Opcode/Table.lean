import Std.Data.TreeMap
import Wordcode.Deflate.Inflate
import Wordcode.Json.Writer
import Wordcode.Opcode.Wire
import Wordcode.Text.Blank
import Wordcode.Text.Hex

namespace Wordcode

abbrev OpcodeIndex := Std.TreeMap String UInt16

/-- The known opcodes. The place of an opcode is its number. -/
structure Table where
  entries : Array Opcode
  index : OpcodeIndex

namespace Table

inductive Error where
  | json
  | decompress
  | hex (cause : Hex.Error)
  | invalidOpcode (name : String) (fault : Opcode.Fault)
  | duplicateName (key : String)
  | empty
  | tooManyOpcodes (count : Nat)
deriving DecidableEq, Repr

def Error.message? : Error → Option String
  | .json => none
  | .decompress => none
  | .hex cause => some ("invalid op meta: " ++ cause.message)
  | .invalidOpcode name fault => some (s!"invalid op meta: opcode '{name}': " ++ fault.message)
  | .duplicateName key => some s!"invalid op meta: duplicate opcode name or alias '{key}'"
  | .empty => some "invalid op meta: empty opcode list"
  | .tooManyOpcodes count =>
    some s!"invalid op meta: {count} opcodes exceed the 16-bit opcode space"

def maxEntries : Nat := 65536

def addName (number : Nat) (index : OpcodeIndex) (name : String) : Except Error OpcodeIndex :=
  let key := normalize name
  if index.contains key then .error (.duplicateName key)
  else .ok (index.insert key (UInt16.ofNat number))

def addEntry (index : OpcodeIndex) (op : Opcode) (number : Nat) : Except Error OpcodeIndex :=
  match op.fault? with
  | some fault => .error (.invalidOpcode op.name fault)
  | none => op.names.foldlM (addName number) index

/-- Opcodes are checked one after the other, each together with its names. -/
def ofEntries (entries : List Opcode) : Except Error Table := do
  if entries.isEmpty then throw .empty
  if maxEntries < entries.length then throw (.tooManyOpcodes entries.length)
  let index ← entries.zipIdx.foldlM (fun index (op, number) => addEntry index op number) ∅
  return ⟨entries.toArray, index⟩

def get? (table : Table) (number : UInt16) : Option Opcode :=
  table.entries[number.toNat]?

/-- The opcode of a name or alias, in any letter case and with `_` for `-`. -/
def lookup (table : Table) (word : String) : Option (UInt16 × Opcode) := do
  let number ← table.index.get? (normalize word)
  return (number, ← table.get? number)

def ofJson (v : Json) : Except Error Table :=
  match v.list? (Opcode.ofJson? (Json.maxDepth - 2)) with
  | some entries => ofEntries entries
  | none => .error .json

def ofText (text : List Char) : Except Error Table :=
  match Json.read text with
  | some v => ofJson v
  | none => .error .json

def ofUtf8 (bytes : List UInt8) : Except Error Table :=
  match Json.readBytes bytes with
  | some v => ofJson v
  | none => .error .json

def isAsciiSpace (b : UInt8) : Bool :=
  b == 0x20 || b == 0x09 || b == 0x0A || b == 0x0C || b == 0x0D

/-- Whether the first byte that is no space opens an array or an object. -/
def looksLikeJson (bytes : List UInt8) : Bool :=
  match bytes.dropWhile isAsciiSpace with
  | b :: _ => b == 0x5B || b == 0x7B
  | [] => false

def ofBytes (bytes : List UInt8) : Except Error Table :=
  if looksLikeJson bytes then ofUtf8 bytes
  else
    match Deflate.decompress? bytes with
    | some bytes => ofUtf8 bytes
    | none => .error .decompress

def ofHex (text : String) : Except Error Table :=
  match Hex.decode (Hex.dropMark (trimmed text)) with
  | .ok bytes => ofBytes bytes
  | .error cause => .error (.hex cause)

def toJson (table : Table) : Json :=
  .list Opcode.toJson table.entries.toList

def write (table : Table) : String :=
  table.toJson.pretty

end Table

end Wordcode
