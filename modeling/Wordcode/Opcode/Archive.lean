import Wordcode.Opcode.Table

namespace Wordcode

structure Deployer where
  parser : String
  store : String
  interpreter : String
  bytecode : List UInt8
  opcodesHash : String
deriving DecidableEq, Repr

namespace Deployer

def toJson (d : Deployer) : Json :=
  .object [("parser", .string d.parser), ("store", .string d.store),
    ("interpreter", .string d.interpreter), ("bytecode", .string ("0x" ++ Hex.encode d.bytecode)),
    ("authoringMetaHash", .string d.opcodesHash)]

def ofJson? (v : Json) : Option Deployer := do
  match ← v.record? ["parser", "store", "interpreter", "bytecode", "authoringMetaHash"] with
  | [some parser, some store, some interpreter, some bytecode, some hash] =>
    return {
      parser := ← parser.string?
      store := ← store.string?
      interpreter := ← interpreter.string?
      bytecode := ← (Hex.decode (Hex.dropMark (← bytecode.string?))).toOption
      opcodesHash := ← hash.string? }
  | _ => none

end Deployer

structure Archive where
  opcodes : Std.TreeMap String (List UInt8) := ∅
  deployers : Std.TreeMap String Deployer := ∅

namespace Archive

inductive Error where
  | noOpcodes (hash : String)
  | noDeployer (hash : String)
deriving DecidableEq, Repr

def Error.message : Error → String
  | .noOpcodes hash => s!"no op meta found for hash {hash}"
  | .noDeployer hash => s!"no deployer found for hash {hash}"

/-- Hashes that differ in letter case or in blanks around them are the same. -/
def key (hash : String) : String :=
  String.ofList ((trim hash.toList).map Char.toLower)

def insertOpcodes (a : Archive) (hash : String) (bytes : List UInt8) : Archive :=
  { a with opcodes := a.opcodes.insert (key hash) bytes }

def insertDeployer (a : Archive) (hash : String) (d : Deployer) : Archive :=
  { a with deployers := a.deployers.insert (key hash) d }

def opcodesOf (a : Archive) (hash : String) : Except Error (List UInt8) :=
  match a.opcodes.get? (key hash) with
  | some bytes => .ok bytes
  | none => .error (.noOpcodes hash)

def deployerOf (a : Archive) (hash : String) : Except Error Deployer :=
  match a.deployers.get? (key hash) with
  | some d => .ok d
  | none => .error (.noDeployer hash)

inductive LoadError where
  | unavailable (cause : Error)
  | table (cause : Table.Error)
deriving DecidableEq, Repr

def LoadError.message? : LoadError → Option String
  | .unavailable cause => some ("op meta unavailable: " ++ cause.message)
  | .table cause => cause.message?

def table (a : Archive) (hash : String) : Except LoadError Table :=
  match a.opcodesOf hash with
  | .error cause => .error (.unavailable cause)
  | .ok bytes =>
    match Table.ofBytes bytes with
    | .ok table => .ok table
    | .error cause => .error (.table cause)

def deployerTable (a : Archive) (hash : String) : Except LoadError Table :=
  match a.deployerOf hash with
  | .error cause => .error (.unavailable cause)
  | .ok d => a.table d.opcodesHash

end Archive

end Wordcode
