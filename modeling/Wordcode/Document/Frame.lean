import Wordcode.Document.Scope
import Wordcode.Document.Token
import Wordcode.Literal
import Wordcode.Opcode.Table

namespace Wordcode

structure Context where
  table : Table
  scope : Scope
  /-- The names that the statement itself binds. -/
  pending : List String

/-- A call whose closing parenthesis is still to come. -/
structure Frame where
  call : Call
  /-- The opcode's description, if its name is known. -/
  entry : Option Opcode
  /-- The index of the opening parenthesis. -/
  paren : Nat
  /-- Whether the text between `<` and `>` leaves no hope of an operand. -/
  operandError : Bool
  /-- The parameters so far, the last one first. -/
  parameters : List Node := []

structure Reading where
  /-- The open calls, the innermost first. -/
  frames : List Frame := []
  /-- The nodes outside of them, the last one first. -/
  nodes : List Node := []
  /-- Whether something was skipped, so that outputs cannot be counted. -/
  dropped : Bool := false
  /-- The last one first. -/
  problems : List Problem := []

namespace Reading

def report (r : Reading) (p : Problem) : Reading :=
  { r with problems := p :: r.problems }

def reportAll (r : Reading) (ps : List Problem) : Reading :=
  { r with problems := ps.reverse ++ r.problems }

def push (r : Reading) (n : Node) : Reading :=
  match r.frames with
  | [] => { r with nodes := n :: r.nodes }
  | f :: frames => { r with frames := { f with parameters := n :: f.parameters } :: frames }

def drop (r : Reading) : Reading :=
  { r with dropped := true }

end Reading

def readValue (w : Word) : Except Problem Nat :=
  match Literal.read w.name with
  | .ok n => .ok n
  | .error (.outOfRange _) =>
    .error ⟨.outOfRangeValue, s!"out-of-range value: {w.name} exceeds max-uint256", w.position⟩
  | .error cause => .error ⟨.invalidWordPattern, cause.message, w.position⟩

def maxArgument : Nat := 65535

def readArgument (item : Label) : Except Problem Argument :=
  if !Literal.isNumeric item.name then .error (.invalidWord item.name item.position)
  else
    let problem : Problem := ⟨.outOfRangeOperandArgs,
      "out-of-range operand argument: " ++ item.name, item.position⟩
    match Literal.read item.name with
    | .ok n => if n ≤ maxArgument then .ok ⟨n, item.position⟩ else .error problem
    | .error _ => .error problem

namespace OperandText

def results (t : OperandText) : List (Except Problem Argument) :=
  t.items.map readArgument

def arguments (t : OperandText) : List Argument :=
  t.results.filterMap fun
    | .ok a => some a
    | .error _ => none

def unclosed (t : OperandText) : Problem :=
  ⟨.expectedClosingAngleBracket, "expected '>'", ⟨t.start, max (t.stop - 1) t.start⟩⟩

def problems (t : OperandText) : List Problem :=
  (t.results.filterMap fun
    | .ok _ => none
    | .error p => some p) ++ if t.isClosed then [] else [t.unclosed]

def isGood (t : OperandText) : Bool :=
  t.problems.isEmpty

def mismatch? (t : OperandText) (op : Opcode) : Option Problem :=
  if t.isGood && t.arguments.length != op.arity then
    some ⟨.mismatchOperandArgs,
      op.name ++ s!" expects {op.arity} operand arguments, found {t.arguments.length}",
      ⟨t.start, t.stop - 1⟩⟩
  else none

end OperandText

namespace Word

def arguments (w : Word) : List Argument :=
  match w.operand with
  | some t => t.arguments
  | none => []

def operandProblems (w : Word) (entry : Option Opcode) : List Problem :=
  match w.operand with
  | some t => t.problems ++ (entry.bind t.mismatch?).toList
  | none => []

def lacksArguments (w : Word) (entry : Option Opcode) : Bool :=
  w.operand.isNone && entry.any (·.takesArguments)

/-- Whether a call with this word cannot have an operand. -/
def operandError (w : Word) (entry : Option Opcode) : Bool :=
  match entry with
  | none => true
  | some op =>
    match w.operand with
    | some t => !t.isGood || t.arguments.length != op.arity
    | none => op.takesArguments

def call (w : Word) (number : Option UInt16) : Call :=
  { name := w.name
    opcode := number
    position := ⟨w.position.first, w.stop - 1⟩
    arguments := w.arguments }

end Word

/-- What an opcode makes of a call that agrees with it. -/
structure Resolution where
  operand : UInt16
  outputs : Nat
deriving DecidableEq, Repr

namespace Call

def lacksArguments (c : Call) : Problem :=
  ⟨.expectedOperandArgs, "expected operand arguments for " ++ c.name, c.position⟩

def lacksParen (c : Call) : Problem :=
  ⟨.expectedOpeningParen, "expected '(' after " ++ c.name, c.position⟩

def badInputs (c : Call) (params : Nat) : Problem :=
  ⟨.outOfRangeInputs, s!"out-of-range inputs: {c.name} does not accept {params} inputs", c.position⟩

/-- The problem of the operand item at an index that refused its value: it stands at the argument
that was meant for the item. -/
def badItem (c : Call) (params : Nat) (items : List OperandItem) (index : Nat) : Option Problem :=
  match items[index]? with
  | none => none
  | some item =>
    if item.isInputs then some (c.badInputs params)
    else
      let place := (items.take index).countP (!·.isInputs)
      some ⟨.outOfRangeOperandArgs, "out-of-range operand argument: " ++ item.name,
        match c.arguments[place]? with
        | some a => a.position
        | none => c.position⟩

def noOutputs (c : Call) : Problem :=
  ⟨.outOfRangeOperandArgs, "cannot compute the outputs of " ++ c.name ++ " from its operand",
    c.position⟩

def badNesting (c : Call) (outputs : Nat) : Problem :=
  ⟨.invalidNestedNode, s!"invalid nested node: {c.name} has {outputs} outputs, " ++
    "only single output opcodes can be nested", c.position⟩

def resolve (c : Call) (op : Opcode) (params : Nat) (nested : Bool) :
    Except (List Problem) Resolution :=
  match op.packOperand (c.arguments.map (·.value)) params with
  | .error indices => .error (indices.filterMap (c.badItem params op.operand))
  | .ok operand =>
    if op.inputCount operand ≠ some params then .error [c.badInputs params]
    else
      match op.outputCount operand with
      | none => .error [c.noOutputs]
      | some outputs =>
        if nested && outputs != 1 then .error [c.badNesting outputs]
        else .ok ⟨operand, outputs⟩

def resolved (c : Call) (r : Resolution) : Call :=
  { c with operand := some r.operand, outputs := some r.outputs }

end Call

namespace Frame

def closed (f : Frame) (i : Nat) : Call :=
  { f.call with position := ⟨f.call.position.first, i⟩, paren := some ⟨f.paren, i⟩ }

def close (f : Frame) (i : Nat) (nested : Bool) : Node × List Problem :=
  let c := f.closed i
  let parameters := f.parameters.reverse
  match f.entry, f.operandError with
  | some op, false =>
    match c.resolve op parameters.length nested with
    | .ok r => (.call (c.resolved r) parameters [], [])
    | .error problems => (.call c parameters [], problems)
  | _, _ => (.call c parameters [], [])

def unclosed (f : Frame) : Problem :=
  ⟨.expectedClosingParen, "expected ')'", .point f.paren⟩

def cut (f : Frame) (stop : Nat) : Node :=
  .call { f.call with position := ⟨f.call.position.first, stop - 1⟩ } f.parameters.reverse []

end Frame

namespace Reading

def callWord (r : Reading) (w : Word) (found : Option (UInt16 × Opcode)) : Reading :=
  let entry := found.map (·.2)
  let call := w.call (found.map (·.1))
  let r := r.reportAll (w.operandProblems entry)
  match w.paren with
  | some paren =>
    let r := if w.lacksArguments entry then r.report call.lacksArguments else r
    { r with frames := ⟨call, entry, paren, w.operandError entry, []⟩ :: r.frames }
  | none =>
    let r :=
      if entry.isNone then r
      else if w.lacksArguments entry then r.report call.lacksArguments
      else r.report call.lacksParen
    r.push (.call call [] [])

/-- A word that no parenthesis or operand text follows, if it is not taken for an opcode: a name
in scope comes first, then a name the statement itself binds, then a numeral. -/
def plainWord? (ctx : Context) (r : Reading) (w : Word) : Option Reading :=
  if ctx.scope.contains w.name then some (r.push (.reference w.name w.position []))
  else if ctx.pending.contains w.name then
    let p : Problem := ⟨.invalidSelfReference, "invalid self reference: " ++ w.name, w.position⟩
    some ((r.report p).push (.reference w.name w.position []))
  else if Literal.isNumeric w.name || Literal.isSentinel w.name then
    match readValue w with
    | .ok n => some (r.push (.value w.name (some n) w.position []))
    | .error p => some ((r.report p).push (.value w.name none w.position []))
  else none

def opcodeWord (ctx : Context) (r : Reading) (w : Word) : Reading :=
  match ctx.table.lookup w.name with
  | some found => r.callWord w (some found)
  | none =>
    if w.isCall then
      (r.report ⟨.undefinedOpcode, "undefined opcode: " ++ w.name, w.position⟩).callWord w none
    else
      r.drop.report
        (if isName w.name then .undefinedWord w.name w.position
          else .invalidWord w.name w.position)

def word (ctx : Context) (r : Reading) (w : Word) : Reading :=
  if w.isCall then r.opcodeWord ctx w
  else
    match plainWord? ctx r w with
    | some r => r
    | none => r.opcodeWord ctx w

def close (r : Reading) (i : Nat) : Reading :=
  match r.frames with
  | [] => r.report ⟨.unexpectedClosingParen, "unexpected ')'", .point i⟩
  | f :: frames =>
    let (n, problems) := f.close i (!frames.isEmpty)
    ({ r with frames := frames }.reportAll problems).push n

def step (ctx : Context) (r : Reading) : Token → Reading
  | .word w => word ctx r w
  | .close i => r.close i
  | .group i => r.drop.report ⟨.expectedOpcode, "expected an opcode before '('", .point i⟩
  | .operand p =>
    r.report ⟨.unexpectedOperandArgs, "operand arguments must directly follow an opcode", p⟩
  | .closeAngle i => r.report ⟨.unexpectedClosingAngleParen, "unexpected '>'", .point i⟩
  | .comma i =>
    r.report ⟨.unexpectedComma, "unexpected ',', parameters are separated by whitespace", .point i⟩
  | .illegal c i => r.report ⟨.illegalChar, "illegal character: " ++ String.singleton c, .point i⟩

/-- Ends the calls that are still open before the index `stop`, the innermost first. The node of
the call that was ended last goes to the one around it. -/
def finishFrames (stop : Nat) (r : Reading) (inner : Option Node) : List Frame → Reading
  | [] => { r with frames := [], nodes := inner.toList ++ r.nodes }
  | f :: frames =>
    let f := { f with parameters := inner.toList ++ f.parameters }
    finishFrames stop (r.report f.unclosed) (some (f.cut stop)) frames

def read (ctx : Context) (right : Segment) : Reading :=
  let r := (Token.scan right).foldl (step ctx) {}
  finishFrames right.stop r none r.frames

end Reading

end Wordcode
