namespace Wordcode

/-- A JSON value. An object keeps its fields in order, repeated ones included. -/
inductive Json where
  | null
  | bool (b : Bool)
  /-- A number written without point and exponent, other than `-0`. -/
  | int (n : Int)
  /-- Any other number. No field of this library holds one, so its value is not kept. -/
  | real
  | string (s : String)
  | array (items : List Json)
  | object (fields : List (String × Json))
  /-- Something that has no value: a string with an unpaired surrogate or a malformed byte, an
  object with such a string for a key, or a number beyond all doubles. It may stand only where a
  value is skipped. -/
  | void
deriving Inhabited

namespace Json

def nat (n : Nat) : Json :=
  .int n

def ofOption (f : α → Json) : Option α → Json
  | none => .null
  | some a => f a

def list (f : α → Json) (as : List α) : Json :=
  .array (as.map f)

def nats (ns : List Nat) : Json :=
  list nat ns

def strings (ss : List String) : Json :=
  list .string ss

mutual

/-- Whether a value can be read as a whole: nothing in it is `void` and arrays and objects nest
at most `room` deep. -/
def readable (room : Nat) : Json → Bool
  | .void => false
  | .array items => 0 < room && readableItems (room - 1) items
  | .object fields => 0 < room && readableFields (room - 1) fields
  | _ => true

def readableItems (room : Nat) : List Json → Bool
  | [] => true
  | v :: rest => readable room v && readableItems room rest

def readableFields (room : Nat) : List (String × Json) → Bool
  | [] => true
  | (_, v) :: rest => readable room v && readableFields room rest

end

end Json

end Wordcode
