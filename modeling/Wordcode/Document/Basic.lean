import Wordcode.Name
import Wordcode.Problem.Basic

namespace Wordcode

/-- A name where it stands on the left of a statement. -/
structure Label where
  name : String
  position : Position
deriving DecidableEq, Repr

def Label.isBindable (l : Label) : Bool :=
  l.name != "_" && isName l.name

/-- A number between `<` and `>`. -/
structure Argument where
  value : Nat
  position : Position
deriving DecidableEq, Repr

structure Call where
  /-- The name as written. -/
  name : String
  opcode : Option UInt16
  /-- From the name to the closing parenthesis. -/
  position : Position
  paren : Option Position := none
  operand : Option UInt16 := none
  outputs : Option Nat := none
  arguments : List Argument := []
deriving DecidableEq, Repr

/-- A term on the right of a statement. Its tags are the names bound to its outputs. -/
inductive Node where
  | value (raw : String) (value : Option Nat) (position : Position) (tags : List Label)
  | reference (name : String) (position : Position) (tags : List Label)
  | call (head : Call) (parameters : List Node) (tags : List Label)
deriving Repr, Inhabited

namespace Node

def position : Node → Position
  | .value _ _ p _ => p
  | .reference _ p _ => p
  | .call head _ _ => head.position

def tags : Node → List Label
  | .value _ _ _ tags => tags
  | .reference _ _ tags => tags
  | .call _ _ tags => tags

/-- The name of a single output, where a new name takes the place of an earlier one. -/
def latest (tags labels : List Label) : List Label :=
  match labels.getLast? with
  | some l => [l]
  | none => tags

def attach (labels : List Label) : Node → Node
  | .value raw v p tags => .value raw v p (latest tags labels)
  | .reference name p tags => .reference name p (latest tags labels)
  | .call head parameters tags => .call head parameters (tags ++ labels)

def outputCount? : Node → Option Nat
  | .value .. => some 1
  | .reference .. => some 1
  | .call head _ _ => head.outputs

mutual

/-- The first unresolved node, a call before its parameters. -/
def unresolved? : Node → Option Node
  | .value raw none p tags => some (.value raw none p tags)
  | .value .. => none
  | .reference .. => none
  | .call head parameters tags =>
    if head.opcode.isNone || head.operand.isNone || head.outputs.isNone then
      some (.call head parameters tags)
    else firstUnresolved? parameters

def firstUnresolved? : List Node → Option Node
  | [] => none
  | n :: rest =>
    match n.unresolved? with
    | some found => some found
    | none => firstUnresolved? rest

end

def isResolved (n : Node) : Bool :=
  n.unresolved?.isNone

end Node

structure Statement where
  position : Position
  labels : List Label
  nodes : List Node
deriving Repr

structure Source where
  position : Position
  statements : List Statement
deriving Repr

/-- All names on left sides in order. The place of a name is its slot on the stack. -/
def Source.labels (s : Source) : List Label :=
  s.statements.flatMap (·.labels)

structure Comment where
  /-- The text with its delimiters. -/
  text : String
  position : Position
deriving DecidableEq, Repr

structure Document where
  sources : List Source
  comments : List Comment
  problems : List Problem
deriving Repr

namespace Document

def isValid (d : Document) : Bool :=
  d.problems.isEmpty

def nodes (d : Document) : List Node :=
  d.sources.flatMap fun s => s.statements.flatMap (·.nodes)

def unresolved? (d : Document) : Option Node :=
  Node.firstUnresolved? d.nodes

def clearProblems (d : Document) : Document :=
  { d with problems := [] }

def removeStatement (d : Document) (source statement : Nat) : Document :=
  { d with
    sources := d.sources.modify source fun s =>
      { s with statements := s.statements.eraseIdx statement } }

end Document

end Wordcode
