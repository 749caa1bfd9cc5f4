import Wordcode.Document.Reader
import Wordcode.Document.Scanner.Span

namespace Wordcode

/-- The opcode of a name or alias, whose number is taken for an index of the table's entries. -/
def Table.find (table : Table) (word : String) : Checked (Option (UInt16 × Opcode)) := do
  match table.index.get? (normalize word) with
  | some number => return some (number, ← Checked.get table.entries number.toNat)
  | none => return none

def Call.settle (c : Call) (op : Opcode) (params : Nat) (nested : Bool) :
    Checked (Except (List Problem) Resolution) := do
  match op.packOperand (c.arguments.map (·.value)) params with
  | .error indices =>
    return .error (← indices.mapM fun k =>
      Checked.require (.outOfBounds k op.operand.length) (c.badItem params op.operand k))
  | .ok _ => return c.resolve op params nested

/-- The node of a call that is closed at the index `i`, and its problems. The opcode is looked up
once more by its number. -/
def Frame.settle (f : Frame) (table : Table) (i : Nat) (nested : Bool) :
    Checked (Node × List Problem) := do
  let c := f.closed i
  let parameters := f.parameters.reverse
  match c.opcode.bind table.get?, f.operandError with
  | some op, false =>
    match ← c.settle op parameters.length nested with
    | .ok r => return (.call (c.resolved r) parameters [], [])
    | .error problems => return (.call c parameters [], problems)
  | _, _ => return (.call c parameters [], [])

def Reading.settle (r : Reading) (table : Table) (i : Nat) : Checked Reading := do
  match r.frames with
  | [] => return r.report ⟨.unexpectedClosingParen, "unexpected ')'", .point i⟩
  | f :: frames =>
    let (n, problems) ← f.settle table i (!frames.isEmpty)
    return ({ r with frames := frames }.reportAll problems).push n

namespace Scanner

def skipGroup (s : Scanner) (i depth : Nat) : Checked Nat := do
  if i < s.limit then
    let c ← s.get i
    if c == '(' then s |>.skipGroup (i + 1) (depth + 1)
    else if c == ')' then
      let depth ← Checked.sub depth 1
      if depth = 0 then return i + 1 else s |>.skipGroup (i + 1) depth
    else s |>.skipGroup (i + 1) depth
  else return s.limit
partial_fixpoint

structure Operand where
  arguments : List Argument
  isGood : Bool

def inItem (c : Char) : Bool :=
  !isBlank c && c != '>' && !Token.endsOperand c

/-- Reads the operand text that starts at `start` from the index `i` on. The arguments before it
are given from the last to the first. -/
def operandFrom (s : Scanner) (start i : Nat) (args : List Argument) (isGood : Bool)
    (r : Reading) : Checked (Nat × Operand × Reading) := do
  let i ← s.skip isBlank i
  let cut : OperandText := ⟨start, i, false, []⟩
  if i < s.limit then
    let c ← s.get i
    if Token.endsOperand c then return (i, ⟨args.reverse, false⟩, r.report cut.unclosed)
    else if c == '>' then return (i + 1, ⟨args.reverse, isGood⟩, r)
    else
      let (item, i) ← s.run inItem i
      match readArgument item with
      | .ok a => s |>.operandFrom start i (a :: args) isGood r
      | .error p => s |>.operandFrom start i args false (r.report p)
  else return (i, ⟨args.reverse, false⟩, r.report cut.unclosed)
partial_fixpoint

def operand (s : Scanner) (start : Nat) (r : Reading) : Checked (Nat × Operand × Reading) :=
  s.operandFrom start (start + 1) [] true r

def reportMismatch (entry : Option Opcode) (o : Operand) (start stop : Nat) (r : Reading) :
    Checked Reading := do
  match entry with
  | some op =>
    if o.isGood && o.arguments.length != op.arity then
      let last ← Checked.sub stop 1
      return r.report ⟨.mismatchOperandArgs,
        op.name ++ s!" expects {op.arity} operand arguments, found {o.arguments.length}",
        ⟨start, last⟩⟩
    else return r
  | none => return r

def operandAt (s : Scanner) (entry : Option Opcode) (start : Nat) (r : Reading) :
    Checked (Nat × Option Operand × Reading) := do
  if ← s.stands '<' start then
    let (stop, o, r) ← s.operand start r
    return (stop, some o, ← reportMismatch entry o start stop r)
  else return (start, none, r)

def openCall (s : Scanner) (word : Label) (found : Option (UInt16 × Opcode)) (r : Reading) :
    Checked (Nat × Reading) := do
  let entry := found.map (·.2)
  let (stop, o, r) ← s.operandAt entry (word.position.last + 1) r
  let last ← Checked.sub stop 1
  let call : Call :=
    { name := word.name
      opcode := found.map (·.1)
      position := ⟨word.position.first, last⟩
      arguments := (o.map (·.arguments)).getD [] }
  let lacksArguments := o.isNone && entry.any (·.takesArguments)
  if ← s.stands '(' stop then
    let r := if lacksArguments then r.report call.lacksArguments else r
    let operandError := lacksArguments || entry.all fun op =>
      o.any fun o => !o.isGood || o.arguments.length != op.arity
    return (stop + 1, { r with frames := ⟨call, entry, stop, operandError, []⟩ :: r.frames })
  else
    let r :=
      if entry.isNone then r
      else if lacksArguments then r.report call.lacksArguments
      else r.report call.lacksParen
    return (stop, r.push (.call call [] []))

def opcodeWord (s : Scanner) (ctx : Context) (word : Label) (isCall : Bool) (r : Reading) :
    Checked (Nat × Reading) := do
  match ← ctx.table.find word.name with
  | some found => s.openCall word (some found) r
  | none =>
    if isCall then
      s.openCall word none
        (r.report ⟨.undefinedOpcode, "undefined opcode: " ++ word.name, word.position⟩)
    else
      return (word.position.last + 1, r.drop.report
        (if isName word.name then .undefinedWord word.name word.position
          else .invalidWord word.name word.position))

def word (s : Scanner) (ctx : Context) (i : Nat) (r : Reading) : Checked (Nat × Reading) := do
  let (word, k) ← s.run Token.isWordChar i
  let isCall := (← s.stands '(' k) || (← s.stands '<' k)
  if isCall then s.opcodeWord ctx word isCall r
  else
    match r.plainWord? ctx { name := word.name, position := word.position } with
    | some r => return (k, r)
    | none => s.opcodeWord ctx word isCall r

def step (s : Scanner) (ctx : Context) (i : Nat) (r : Reading) : Checked (Nat × Reading) := do
  let c ← s.get i
  if isBlank c then return (i + 1, r)
  else if c == '(' then return (← s.skipGroup i 0, r.step ctx (.group i))
  else if c == ')' then return (i + 1, ← r.settle ctx.table i)
  else if c == '<' then
    let last ← Checked.sub s.limit 1
    let k ← s.skip (· != '>') i
    let k := if k < s.limit then k else last
    return (k + 1, r.step ctx (.operand ⟨i, k⟩))
  else if c == '>' then return (i + 1, r.step ctx (.closeAngle i))
  else if c == ',' then return (i + 1, r.step ctx (.comma i))
  else if Token.isWordChar c then s.word ctx i r
  else return (i + 1, r.step ctx (.illegal c i))

def loop (s : Scanner) (ctx : Context) (i : Nat) (r : Reading) : Checked Reading := do
  if i < s.limit then
    let (i, r) ← s.step ctx i r
    s |>.loop ctx i r
  else return r
partial_fixpoint

def read (s : Scanner) (ctx : Context) (start : Nat) : Checked Reading := do
  let r ← s.loop ctx start {}
  return Reading.finishFrames s.limit r none r.frames

variable (text : Array Char) (table : Table)

def statement (scope : Scope) (s : Span) : Checked (Option Statement × List Problem) := do
  let s ← s.trim text
  if s.isEmpty then return (none, [])
  else
    match ← s.sides text with
    | .error problem => return (none, [problem])
    | .ok (left, right) =>
      let labels ← left.labels text
      let pending := (labels.filter (·.isBindable)).map (·.name)
      let r ← (right.scanner text).read ⟨table, scope, pending⟩ right.start
      let nodes := r.nodes.reverse
      let (nodes, unbound) := if r.dropped then (nodes, []) else Binding.bind labels nodes
      return (some ⟨s.position, labels, nodes⟩,
        Segment.labelProblems labels ++ r.problems.reverse ++ unbound ++ scope.duplicates labels)

def progress (p : Source.Progress) (s : Span) : Checked Source.Progress := do
  match ← statement text table p.scope s with
  | (none, problems) => return { p with problems := problems :: p.problems }
  | (some statement, problems) =>
    return { scope := p.scope.declareAll statement.labels
             statements := statement :: p.statements
             problems := problems :: p.problems }

def source (s : Span) : Checked (Source × List Problem) := do
  let p ← (← s.statements text).foldlM (progress text table) {}
  return (⟨(← s.trim text).position, p.statements.reverse⟩, p.problems.reverse.flatten)

/-- Reads a text under a table of opcodes. -/
def document : Checked Document := do
  let stripped ← stripComments text
  let chars := stripped.chars.toArray
  let sources ← (← Span.sources chars).mapM (source chars table)
  return { sources := sources.map (·.1)
           comments := stripped.comments
           problems := stripped.problems ++ sources.flatMap (·.2) }

end Scanner

end Wordcode
