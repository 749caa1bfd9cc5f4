import Wordcode.Document.Binding
import Wordcode.Document.Comment
import Wordcode.Document.Frame

namespace Wordcode

namespace Statement

def ofSides (table : Table) (scope : Scope) (position : Position) (left right : Segment) :
    Statement × List Problem :=
  let labels := left.labels
  let pending := (labels.filter (·.isBindable)).map (·.name)
  let r := Reading.read ⟨table, scope, pending⟩ right
  let nodes := r.nodes.reverse
  let (nodes, unbound) := if r.dropped then (nodes, []) else Binding.bind labels nodes
  (⟨position, labels, nodes⟩,
    Segment.labelProblems labels ++ r.problems.reverse ++ unbound ++ scope.duplicates labels)

def ofSegment (table : Table) (scope : Scope) (segment : Segment) :
    Option Statement × List Problem :=
  let segment := segment.trim
  if segment.isEmpty then (none, [])
  else
    match segment.sides with
    | .error problem => (none, [problem])
    | .ok (left, right) =>
      let (statement, problems) := ofSides table scope segment.position left right
      (some statement, problems)

end Statement

namespace Source

/-- A source as far as it is read, its last statement and problems first. -/
structure Progress where
  scope : Scope := {}
  statements : List Statement := []
  problems : List (List Problem) := []

def Progress.step (table : Table) (p : Progress) (segment : Segment) : Progress :=
  match Statement.ofSegment table p.scope segment with
  | (none, problems) => { p with problems := problems :: p.problems }
  | (some statement, problems) =>
    { scope := p.scope.declareAll statement.labels
      statements := statement :: p.statements
      problems := problems :: p.problems }

def ofSegment (table : Table) (segment : Segment) : Source × List Problem :=
  let p : Progress := segment.statements.foldl (Progress.step table) {}
  (⟨segment.trim.position, p.statements.reverse⟩, p.problems.reverse.flatten)

end Source

/-- Reads a text under a table of opcodes. -/
def Document.read (table : Table) (text : List Char) : Document :=
  let stripped := stripComments text
  let sources := (Segment.sources stripped.chars).map (Source.ofSegment table)
  { sources := sources.map (·.1)
    comments := stripped.comments
    problems := stripped.problems ++ sources.flatMap (·.2) }

end Wordcode
