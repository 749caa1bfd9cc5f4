import Wordcode.Name
import Wordcode.Operand.Packing

namespace Wordcode

structure Parameter where
  name : String
  desc : String := ""
deriving DecidableEq, Repr

/-- A count held in a range of operand bits, possibly through a formula. -/
def countFrom (bits : BitRange) (formula : Option Formula) (operand : UInt16) : Option Nat :=
  match formula with
  | none => some (bits.extract operand)
  | some f =>
    match f.eval (bits.extract operand) with
    | .ok n => if 0 ≤ n then some n.toNat else none
    | .error _ => none

inductive InputRule where
  | fixed (n : Nat)
  | listed (parameters : List Parameter)
  | computed (bits : BitRange) (formula : Option Formula) (parameters : List Parameter)
deriving DecidableEq, Repr

def InputRule.count (rule : InputRule) (operand : UInt16) : Option Nat :=
  match rule with
  | .fixed n => some n
  | .listed parameters => some parameters.length
  | .computed bits formula _ => countFrom bits formula operand

inductive OutputRule where
  | fixed (n : Nat)
  | computed (bits : BitRange) (formula : Option Formula)
deriving DecidableEq, Repr

def OutputRule.count (rule : OutputRule) (operand : UInt16) : Option Nat :=
  match rule with
  | .fixed n => some n
  | .computed bits formula => countFrom bits formula operand

structure OperandItem where
  name : String
  desc : String := ""
  bits : BitRange
  formula : Option Formula := none
  valid : Option (List ValidRange) := none
deriving DecidableEq, Repr

namespace OperandItem

/-- The item of this name is filled with the number of parameters and not written by the user. -/
def isInputs (item : OperandItem) : Bool :=
  item.name == "inputs"

def field (item : OperandItem) (value : Nat) : Field :=
  ⟨value, item.bits, item.formula, item.valid⟩

def maxCount : Nat := Nat.pow 2 32 - 1

/-- Gives each item its value: the number of parameters, or the next argument. -/
def fill (params : Nat) : List OperandItem → List Nat → List Field
  | [], _ => []
  | item :: items, args =>
    if item.isInputs then item.field (min params maxCount) :: fill params items args
    else item.field (args.headD 0) :: fill params items args.tail

def invert (item : OperandItem) (operand : UInt16) : Option Nat :=
  Formula.invert item.formula (item.bits.extract operand) item.bits.width

/-- The first item that shares bits with a later one, and the first such item. -/
def overlap? : List OperandItem → Option (OperandItem × OperandItem)
  | [] => none
  | item :: items =>
    match items.find? (item.bits.overlaps ·.bits) with
    | some other => some (item, other)
    | none => overlap? items

end OperandItem

/-- The description of an opcode. Its operand is zero if there are no operand items. -/
structure Opcode where
  name : String
  desc : String := ""
  aliases : List String := []
  operand : List OperandItem
  inputs : InputRule
  outputs : OutputRule
deriving DecidableEq, Repr

namespace Opcode

def names (op : Opcode) : List String :=
  op.name :: op.aliases

def userItems (op : Opcode) : List OperandItem :=
  op.operand.filter (!·.isInputs)

def arity (op : Opcode) : Nat :=
  op.userItems.length

def takesArguments (op : Opcode) : Bool :=
  0 < op.arity

def inputCount (op : Opcode) (operand : UInt16) : Option Nat :=
  op.inputs.count operand

def outputCount (op : Opcode) (operand : UInt16) : Option Nat :=
  op.outputs.count operand

/-- The operand for the given arguments and number of parameters, or the indices of the items that
refuse their values. -/
def packOperand (op : Opcode) (args : List Nat) (params : Nat) : Except (List Nat) UInt16 :=
  Field.pack (OperandItem.fill params op.operand args)

/-- The arguments recovered from an operand, if they give it back. -/
def unpackOperand (op : Opcode) (operand : UInt16) (params : Nat) : Option (List Nat) := do
  let args ← op.userItems.mapM (·.invert operand)
  match op.packOperand args params with
  | .ok packed => if packed = operand then some args else none
  | .error _ => none

inductive Fault where
  | badName
  | badAlias (word : String)
  | manyInputs
  | tooWide (bits : Nat)
  | overlap (a b : OperandItem)
deriving DecidableEq, Repr

def Fault.message : Fault → String
  | .badName => "name must match ^[a-z][a-z0-9-]*$"
  | .badAlias word => s!"alias '{word}' must match ^[a-z][a-z0-9-]*$"
  | .manyInputs => "more than one 'inputs' operand argument"
  | .tooWide bits => s!"operand arguments use {bits} bits"
  | .overlap a b =>
    "operand arguments '" ++ a.name ++ "' " ++ a.bits.text ++
      " and '" ++ b.name ++ "' " ++ b.bits.text ++ " overlap"

def canName (word : String) : Bool :=
  isName (normalize word)

def width (op : Opcode) : Nat :=
  op.operand.foldr (·.bits.width + ·) 0

def fault? (op : Opcode) : Option Fault :=
  if !canName op.name then some .badName
  else
    match op.aliases.find? (!canName ·) with
    | some word => some (.badAlias word)
    | none =>
      if 1 < op.operand.countP (·.isInputs) then some .manyInputs
      else if 16 < op.width then some (.tooWide op.width)
      else (OperandItem.overlap? op.operand).map fun (a, b) => .overlap a b

end Opcode

end Wordcode
