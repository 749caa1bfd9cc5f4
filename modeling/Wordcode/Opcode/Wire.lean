import Wordcode.Json.Decode
import Wordcode.Json.Reader
import Wordcode.Opcode.Basic

namespace Wordcode

/-! The JSON form of opcode descriptions. -/

def BitRange.toJson (r : BitRange) : Json :=
  .nats [r.lo, r.hi]

def BitRange.ofJson? (v : Json) : Option BitRange := do
  let (lo, hi) ← v.pair? (Json.nat? 255)
  (BitRange.ofBounds lo hi).toOption

def ValidRange.toJson (r : ValidRange) : Json :=
  .nats r.toList

def ValidRange.ofJson? (v : Json) : Option ValidRange := do
  (ValidRange.ofList (← v.list? (Json.nat? (Nat.pow 2 32 - 1)))).toOption

def Formula.toJson (f : Formula) : Json :=
  .string f.source

def Formula.ofJson? (v : Json) : Option Formula := do
  (Formula.read (← v.string?)).toOption

def optionField (name : String) (f : α → Json) : Option α → List (String × Json)
  | none => []
  | some a => [(name, f a)]

def descField (desc : String) : List (String × Json) :=
  if desc.isEmpty then [] else [("desc", .string desc)]

def listField (name : String) (f : α → Json) (as : List α) : List (String × Json) :=
  if as.isEmpty then [] else [(name, .list f as)]

namespace Parameter

def toJson (p : Parameter) : Json :=
  .object (("name", .string p.name) :: descField p.desc)

def ofJson? (v : Json) : Option Parameter := do
  match ← v.record? ["name", "desc"] with
  | [some name, desc] => return ⟨← name.string?, ← Json.withDefault "" Json.string? desc⟩
  | _ => none

end Parameter

/-- A count of inputs or outputs as written: a number, or an object. -/
inductive Arity where
  | count (n : Nat)
  | detailed (parameters : List Parameter) (bits : Option BitRange) (formula : Option Formula)

namespace Arity

def toJson : Arity → Json
  | .count n => .nat n
  | .detailed parameters bits formula =>
    .object (listField "parameters" Parameter.toJson parameters ++
      optionField "bits" BitRange.toJson bits ++ optionField "computation" Formula.toJson formula)

/-- The value is read as a whole, as it may have either form. -/
def ofJson? (room : Nat) (v : Json) : Option Arity := do
  if !v.readable room then none
  match v with
  | .object fields =>
    match ← (Json.object fields).record? ["parameters", "bits", "computation"] with
    | [parameters, bits, formula] =>
      return .detailed (← Json.withDefault [] (Json.list? Parameter.ofJson?) parameters)
        (← Json.nullable BitRange.ofJson? bits) (← Json.nullable Formula.ofJson? formula)
    | _ => none
  | v => return .count (← v.nat? (Nat.pow 2 64 - 1))

end Arity

namespace InputRule

def toArity : InputRule → Arity
  | .fixed n => .count n
  | .listed parameters => .detailed parameters none none
  | .computed bits formula parameters => .detailed parameters (some bits) formula

def ofArity? : Arity → Option InputRule
  | .count n => some (.fixed n)
  | .detailed parameters (some bits) formula => some (.computed bits formula parameters)
  | .detailed _ none (some _) => none
  | .detailed parameters none none => some (.listed parameters)

end InputRule

namespace OutputRule

def toArity : OutputRule → Arity
  | .fixed n => .count n
  | .computed bits formula => .detailed [] (some bits) formula

def ofArity? : Arity → Option OutputRule
  | .count n => some (.fixed n)
  | .detailed _ (some bits) formula => some (.computed bits formula)
  | .detailed _ none _ => none

end OutputRule

namespace OperandItem

def toJson (item : OperandItem) : Json :=
  .object (("name", .string item.name) :: descField item.desc ++
    [("bits", item.bits.toJson)] ++ optionField "computation" Formula.toJson item.formula ++
    optionField "validRange" (Json.list ValidRange.toJson) item.valid)

def ofJson? (v : Json) : Option OperandItem := do
  match ← v.record? ["name", "desc", "bits", "computation", "validRange"] with
  | [some name, desc, some bits, formula, valid] =>
    return {
      name := ← name.string?
      desc := ← Json.withDefault "" Json.string? desc
      bits := ← BitRange.ofJson? bits
      formula := ← Json.nullable Formula.ofJson? formula
      valid := ← Json.nullable (Json.list? ValidRange.ofJson?) valid }
  | _ => none

/-- No items are written as zero. -/
def listToJson (items : List OperandItem) : Json :=
  if items.isEmpty then .nat 0 else .list toJson items

def listOfJson? (room : Nat) (v : Json) : Option (List OperandItem) := do
  if !v.readable room then none
  match v with
  | .array items => items.mapM ofJson?
  | v => if (← v.nat? (Nat.pow 2 64 - 1)) = 0 then some [] else none

end OperandItem

namespace Opcode

def toJson (op : Opcode) : Json :=
  .object (("name", .string op.name) :: descField op.desc ++
    listField "aliases" Json.string op.aliases ++
    [("operand", OperandItem.listToJson op.operand), ("inputs", op.inputs.toArity.toJson),
      ("outputs", op.outputs.toArity.toJson)])

def ofJson? (room : Nat) (v : Json) : Option Opcode := do
  match ← v.record? ["name", "desc", "aliases", "operand", "inputs", "outputs"] with
  | [some name, desc, aliases, some operand, some inputs, some outputs] =>
    return {
      name := ← name.string?
      desc := ← Json.withDefault "" Json.string? desc
      aliases := ← Json.withDefault [] (Json.list? Json.string?) aliases
      operand := ← OperandItem.listOfJson? room operand
      inputs := ← InputRule.ofArity? (← Arity.ofJson? room inputs)
      outputs := ← OutputRule.ofArity? (← Arity.ofJson? room outputs) }
  | _ => none

def read? (text : String) : Option Opcode := do
  ofJson? (Json.maxDepth - 1) (← Json.read text.toList)

end Opcode

end Wordcode
