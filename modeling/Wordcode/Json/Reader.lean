import Wordcode.Json.Token
import Wordcode.Text.Utf8

namespace Wordcode.Json

abbrev OpenFields := Option (List (String × Json))

def OpenFields.push (done : OpenFields) (key : Option String) (v : Json) : OpenFields := do
  return (← key, v) :: (← done)

def OpenFields.close : OpenFields → Json
  | some done => .object done.reverse
  | none => .void

inductive Frame where
  | array (done : List Json)
  | object (done : OpenFields)
  /-- An object in which the value of `key` is to come. -/
  | field (done : OpenFields) (key : Option String)

inductive State where
  | value (stack : List Frame)
  /-- Right after `[`. -/
  | item (stack : List Frame)
  /-- Right after the bracket that opens an object. -/
  | member (stack : List Frame)
  | key (stack : List Frame)
  | colon (stack : List Frame) (key : Option String)
  /-- A value in an open array or object is complete. -/
  | next (stack : List Frame)
  | complete (v : Json)

namespace State

def deliver (v : Json) : List Frame → Option State
  | [] => some (.complete v)
  | .array done :: stack => some (.next (.array (v :: done) :: stack))
  | .field done k :: stack => some (.next (.object (done.push k v) :: stack))
  | .object _ :: _ => none

def start (stack : List Frame) : Token → Option State
  | .scalar v => deliver v stack
  | .string (some s) => deliver (.string s) stack
  | .string none => deliver .void stack
  | .openArray => some (.item (.array [] :: stack))
  | .openObject => some (.member (.object (some []) :: stack))
  | _ => none

def keyOf (stack : List Frame) : Token → Option State
  | .string k => some (.colon stack k)
  | _ => none

def close (stack : List Frame) : Token → Option State
  | .closeArray =>
    match stack with
    | .array done :: stack => deliver (.array done.reverse) stack
    | _ => none
  | .closeObject =>
    match stack with
    | .object done :: stack => deliver done.close stack
    | _ => none
  | _ => none

def step (s : State) (t : Token) : Option State :=
  match s, t with
  | .value stack, t => start stack t
  | .item stack, .closeArray => close stack .closeArray
  | .item stack, t => start stack t
  | .member stack, .closeObject => close stack .closeObject
  | .member stack, t => keyOf stack t
  | .key stack, t => keyOf stack t
  | .colon (.object done :: stack) k, .colon => some (.value (.field done k :: stack))
  | .next (.array done :: stack), .comma => some (.value (.array done :: stack))
  | .next (.object done :: stack), .comma => some (.key (.object done :: stack))
  | .next stack, t => close stack t
  | _, _ => none

end State

def ofTokens? (tokens : List Token) : Option Json :=
  match tokens.foldlM State.step (.value []) with
  | some (.complete v) => some v
  | _ => none

def read (text : List Char) : Option Json :=
  (scan .between [] text).bind ofTokens?

/-- Reads the bytes of a text, which may be malformed inside of strings that are skipped. -/
def readBytes (bytes : List UInt8) : Option Json :=
  match String.fromUTF8? ⟨bytes.toArray⟩ with
  | some text => read text.toList
  | none => (scanUnits .between [] (units bytes)).bind ofTokens?

/-- How deep arrays and objects of a document may nest in a value that is read as a whole. -/
def maxDepth : Nat := 127

end Wordcode.Json
