import Wordcode.Json.Decode
import Wordcode.Text.Position

namespace Wordcode.Problem

inductive Code where
  | undefinedError
  | runtimeError
  | illegalChar
  | invalidOpMeta
  | undefinedWord
  | undefinedOpcode
  | invalidWordPattern
  | invalidStatement
  | invalidSelfReference
  | invalidNestedNode
  | unexpectedToken
  | unexpectedClosingParen
  | unexpectedClosingAngleParen
  | unexpectedEndOfComment
  | unexpectedOperandArgs
  | unexpectedComma
  | expectedOpcode
  | expectedClosingParen
  | expectedOpeningParen
  | expectedClosingAngleBracket
  | expectedOperandArgs
  | mismatchRHS
  | mismatchLHS
  | mismatchOperandArgs
  | outOfRangeInputs
  | outOfRangeOperandArgs
  | outOfRangeValue
  | duplicateAlias
deriving DecidableEq, Repr

namespace Code

def number : Code → Nat
  | .undefinedError => 0
  | .runtimeError => 1
  | .illegalChar => 2
  | .invalidOpMeta => 3
  | .undefinedWord => 257
  | .undefinedOpcode => 258
  | .invalidWordPattern => 513
  | .invalidStatement => 514
  | .invalidSelfReference => 515
  | .invalidNestedNode => 516
  | .unexpectedToken => 769
  | .unexpectedClosingParen => 770
  | .unexpectedClosingAngleParen => 771
  | .unexpectedEndOfComment => 772
  | .unexpectedOperandArgs => 773
  | .unexpectedComma => 774
  | .expectedOpcode => 1025
  | .expectedClosingParen => 1026
  | .expectedOpeningParen => 1027
  | .expectedClosingAngleBracket => 1028
  | .expectedOperandArgs => 1029
  | .mismatchRHS => 1281
  | .mismatchLHS => 1282
  | .mismatchOperandArgs => 1283
  | .outOfRangeInputs => 1537
  | .outOfRangeOperandArgs => 1538
  | .outOfRangeValue => 1539
  | .duplicateAlias => 1793

def name : Code → String
  | .undefinedError => "UndefinedError"
  | .runtimeError => "RuntimeError"
  | .illegalChar => "IllegalChar"
  | .invalidOpMeta => "InvalidOpMeta"
  | .undefinedWord => "UndefinedWord"
  | .undefinedOpcode => "UndefinedOpcode"
  | .invalidWordPattern => "InvalidWordPattern"
  | .invalidStatement => "InvalidStatement"
  | .invalidSelfReference => "InvalidSelfReference"
  | .invalidNestedNode => "InvalidNestedNode"
  | .unexpectedToken => "UnexpectedToken"
  | .unexpectedClosingParen => "UnexpectedClosingParen"
  | .unexpectedClosingAngleParen => "UnexpectedClosingAngleParen"
  | .unexpectedEndOfComment => "UnexpectedEndOfComment"
  | .unexpectedOperandArgs => "UnexpectedOperandArgs"
  | .unexpectedComma => "UnexpectedComma"
  | .expectedOpcode => "ExpectedOpcode"
  | .expectedClosingParen => "ExpectedClosingParen"
  | .expectedOpeningParen => "ExpectedOpeningParen"
  | .expectedClosingAngleBracket => "ExpectedClosingAngleBracket"
  | .expectedOperandArgs => "ExpectedOperandArgs"
  | .mismatchRHS => "MismatchRHS"
  | .mismatchLHS => "MismatchLHS"
  | .mismatchOperandArgs => "MismatchOperandArgs"
  | .outOfRangeInputs => "OutOfRangeInputs"
  | .outOfRangeOperandArgs => "OutOfRangeOperandArgs"
  | .outOfRangeValue => "OutOfRangeValue"
  | .duplicateAlias => "DuplicateAlias"

def all : List Code :=
  [.undefinedError, .runtimeError, .illegalChar,
    .invalidOpMeta, .undefinedWord, .undefinedOpcode,
    .invalidWordPattern, .invalidStatement, .invalidSelfReference,
    .invalidNestedNode, .unexpectedToken, .unexpectedClosingParen,
    .unexpectedClosingAngleParen, .unexpectedEndOfComment, .unexpectedOperandArgs,
    .unexpectedComma, .expectedOpcode, .expectedClosingParen,
    .expectedOpeningParen, .expectedClosingAngleBracket, .expectedOperandArgs,
    .mismatchRHS, .mismatchLHS, .mismatchOperandArgs,
    .outOfRangeInputs, .outOfRangeOperandArgs, .outOfRangeValue,
    .duplicateAlias]

def ofNumber? (n : Nat) : Option Code :=
  all.find? (·.number == n)

end Code

inductive Category where
  | runtime
  | undefined
  | invalidSyntax
  | unexpectedToken
  | expectedToken
  | mismatch
  | outOfRange
  | duplicate
deriving DecidableEq, Repr

namespace Category

def name : Category → String
  | .runtime => "Runtime"
  | .undefined => "Undefined"
  | .invalidSyntax => "InvalidSyntax"
  | .unexpectedToken => "UnexpectedToken"
  | .expectedToken => "ExpectedToken"
  | .mismatch => "Mismatch"
  | .outOfRange => "OutOfRange"
  | .duplicate => "Duplicate"

def label : Category → String
  | .runtime => "cannot process this"
  | .undefined => "not defined"
  | .invalidSyntax => "invalid"
  | .unexpectedToken => "unexpected"
  | .expectedToken => "expected here"
  | .mismatch => "count mismatch"
  | .outOfRange => "out of range"
  | .duplicate => "duplicate"

end Category

/-- Codes are numbered in bands, one for each category. -/
def Code.category (c : Code) : Category :=
  let n := c.number
  if n ≤ 12 then .runtime
  else if n ≤ 263 then .undefined
  else if n ≤ 532 then .invalidSyntax
  else if n ≤ 776 then .unexpectedToken
  else if n ≤ 1041 then .expectedToken
  else if n ≤ 1283 then .mismatch
  else if n ≤ 1539 then .outOfRange
  else .duplicate

end Wordcode.Problem

namespace Wordcode

structure Problem where
  code : Problem.Code
  message : String
  position : Position
deriving DecidableEq, Repr

namespace Problem

def text (p : Problem) : String :=
  p.code.name ++ s!" ({p.code.number}) at " ++ p.position.text ++ ": " ++ p.message

def shift (n : Nat) (p : Problem) : Problem :=
  { p with position := p.position.shift n }

def toJson (p : Problem) : Json :=
  .object [("code", .nat p.code.number), ("message", .string p.message),
    ("position", .nats [p.position.first, p.position.last])]

def ofJson? (v : Json) : Option Problem := do
  match ← v.record? ["code", "message", "position"] with
  | [some code, some message, some position] =>
    let (first, last) ← position.pair? (Json.nat? (Nat.pow 2 64 - 1))
    return ⟨← Code.ofNumber? (← code.nat? (Nat.pow 2 16 - 1)), ← message.string?, ⟨first, last⟩⟩
  | _ => none

def undefinedWord (word : String) (p : Position) : Problem :=
  ⟨.undefinedWord, "undefined word: " ++ word, p⟩

def invalidWord (word : String) (p : Position) : Problem :=
  ⟨.invalidWordPattern, "invalid word pattern: " ++ word, p⟩

def invalidTable (message : String) (text : List Char) : Problem :=
  ⟨.invalidOpMeta, message, ⟨0, text.length - 1⟩⟩

end Problem

end Wordcode
