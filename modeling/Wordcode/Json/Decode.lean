import Wordcode.Json.Basic

namespace Wordcode.Json

def string? : Json → Option String
  | .string s => some s
  | _ => none

def nat? (max : Nat) : Json → Option Nat
  | .int n => if 0 ≤ n ∧ n ≤ max then some n.toNat else none
  | _ => none

def list? (item : Json → Option α) : Json → Option (List α)
  | .array items => items.mapM item
  | _ => none

def pair? (item : Json → Option α) : Json → Option (α × α)
  | .array [a, b] => do return (← item a, ← item b)
  | _ => none

/-- The field of a name, if it stands at most once. -/
def field? (fields : List (String × Json)) (name : String) : Option (Option Json) :=
  match fields.filter (·.1 == name) with
  | [] => some none
  | [(_, v)] => some (some v)
  | _ => none

/-- The named fields of a record in order. A record may also be written as an array of its fields,
where some at the end may be missing. Other fields are skipped. -/
def record? (names : List String) : Json → Option (List (Option Json))
  | .object fields => names.mapM (field? fields)
  | .array items =>
    if items.length ≤ names.length then
      some (items.map some ++ List.replicate (names.length - items.length) none)
    else none
  | _ => none

def withDefault (default : α) (read : Json → Option α) : Option Json → Option α
  | none => some default
  | some v => read v

def nullable (read : Json → Option α) : Option Json → Option (Option α)
  | none => some none
  | some .null => some none
  | some v => (read v).map some

end Wordcode.Json
