import Wordcode.Document.Basic

namespace Wordcode

structure Binding where
  /-- The names that are left. -/
  labels : List Label
  /-- The nodes with their names, the last one first. -/
  nodes : List Node := []
  /-- The last one first. -/
  problems : List Problem := []

namespace Binding

def unnamed (n : Node) : Problem :=
  ⟨.mismatchLHS, "no LHS name for this value", n.position⟩

def unmatched (l : Label) : Problem :=
  ⟨.mismatchRHS, "no RHS value for '" ++ l.name ++ "'", l.position⟩

def step (b : Binding) (n : Node) (outputs : Nat) : Binding :=
  { labels := b.labels.drop outputs
    nodes := n.attach (b.labels.take outputs) :: b.nodes
    problems := List.replicate (outputs - b.labels.length) (unnamed n) ++ b.problems }

/-- Binds names to outputs by their order, with a problem for each that is left over on either
side. If an output count is not known nothing is bound. -/
def bind (labels : List Label) (nodes : List Node) : List Node × List Problem :=
  match nodes.mapM Node.outputCount? with
  | none => (nodes, [])
  | some counts =>
    let b : Binding := (nodes.zip counts).foldl (fun b (n, outputs) => step b n outputs)
      { labels := labels }
    (b.nodes.reverse, b.problems.reverse ++ b.labels.map unmatched)

end Binding

end Wordcode
