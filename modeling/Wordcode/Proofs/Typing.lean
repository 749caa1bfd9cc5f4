import Wordcode.Document.Frame
import Wordcode.Proofs.Balance

namespace Wordcode

/-- The opcode takes the arguments and the number of parameters, which give it an operand and a
number of outputs. -/
structure Opcode.Accepts (op : Opcode) (args : List Nat) (params : Nat) (operand : UInt16)
    (outputs : Nat) : Prop where
  arity : args.length = op.arity
  bounded : ∀ a ∈ args, a ≤ maxArgument
  packs : op.packOperand args params = .ok operand
  takes : op.inputCount operand = some params
  gives : op.outputCount operand = some outputs

structure Call.Resolves (c : Call) (r : Resolution) : Prop where
  operand : c.operand = some r.operand
  outputs : c.outputs = some r.outputs

namespace Node

/-- Nodes that are resolved at every depth: numerals have values, references are in scope and
calls agree with their opcodes. Nested nodes have one output each. The parameters of a call and
the nodes behind it are two shorter lists, so that one induction goes through both. -/
inductive Typed (table : Table) (scope : Scope) : Bool → List Node → Prop
  | nil {nested : Bool} : Typed table scope nested []
  | value {nested : Bool} {raw : String} {n : Nat} {p : Position} {tags : List Label}
      {rest : List Node} : Literal.read raw = .ok n → Typed table scope nested rest →
      Typed table scope nested (.value raw (some n) p tags :: rest)
  | reference {nested : Bool} {name : String} {p : Position} {tags : List Label}
      {rest : List Node} : scope.contains name = true → Typed table scope nested rest →
      Typed table scope nested (.reference name p tags :: rest)
  | call {nested : Bool} {head : Call} {params : List Node} {tags : List Label}
      {rest : List Node} {number : UInt16} {op : Opcode} {r : Resolution} :
      table.lookup head.name = some (number, op) → head.opcode = some number →
      head.Resolves r →
      op.Accepts (head.arguments.map (·.value)) params.length r.operand r.outputs →
      (nested = true → r.outputs = 1) →
      Typed table scope true params → Typed table scope nested rest →
      Typed table scope nested (.call head params tags :: rest)

variable {table : Table} {scope : Scope} {nested : Bool}

theorem Typed.head {n : Node} {rest : List Node} (h : Typed table scope nested (n :: rest)) :
    Typed table scope nested [n] := by
  cases h with
  | value hr _ => exact .value hr .nil
  | reference hs _ => exact .reference hs .nil
  | call hl ho hr ha hn hp _ => exact .call hl ho hr ha hn hp .nil

theorem Typed.tail {n : Node} {rest : List Node} (h : Typed table scope nested (n :: rest)) :
    Typed table scope nested rest := by
  cases h with
  | value _ ht => exact ht
  | reference _ ht => exact ht
  | call _ _ _ _ _ _ ht => exact ht

theorem Typed.cons {n : Node} {rest : List Node} (h : Typed table scope nested [n])
    (ht : Typed table scope nested rest) : Typed table scope nested (n :: rest) := by
  cases h with
  | value hr _ => exact .value hr ht
  | reference hs _ => exact .reference hs ht
  | call hl ho hr ha hn hp _ => exact .call hl ho hr ha hn hp ht

theorem typed_iff_forall {ns : List Node} :
    Typed table scope nested ns ↔ ∀ n ∈ ns, Typed table scope nested [n] := by
  induction ns with
  | nil => exact ⟨fun _ _ hm => by simp at hm, fun _ => .nil⟩
  | cons n ns ih =>
    rw [List.forall_mem_cons, ← ih]
    exact ⟨fun h => ⟨h.head, h.tail⟩, fun h => h.1.cons h.2⟩

theorem Typed.reverse {ns : List Node} (h : Typed table scope nested ns) :
    Typed table scope nested ns.reverse := by
  rw [typed_iff_forall] at h ⊢
  exact fun n hm => h n (List.mem_reverse.mp hm)

theorem Typed.attach {n : Node} (h : Typed table scope nested [n]) (labels : List Label) :
    Typed table scope nested [n.attach labels] := by
  cases h with
  | value hr _ => exact .value hr .nil
  | reference hs _ => exact .reference hs .nil
  | call hl ho hr ha hn hp _ => exact .call hl ho hr ha hn hp .nil

theorem Typed.of_tagged {ns ns' : List Node} (h : Typed table scope nested ns)
    (ht : List.Forall₂ Tagged ns ns') : Typed table scope nested ns' := by
  induction ht with
  | nil => exact .nil
  | cons hn _ ih =>
    obtain ⟨labels, rfl⟩ := hn
    exact (h.head.attach labels).cons (ih h.tail)

def outputsOf (ns : List Node) : Nat :=
  (ns.map fun n => n.outputCount?.getD 0).sum

@[simp]
theorem outputsOf_nil : outputsOf [] = 0 := rfl

@[simp]
theorem outputsOf_cons (n : Node) (ns : List Node) :
    outputsOf (n :: ns) = n.outputCount?.getD 0 + outputsOf ns := rfl

theorem outputsOf_tagged {ns ns' : List Node} (h : List.Forall₂ Tagged ns ns') :
    outputsOf ns' = outputsOf ns := by
  induction h with
  | nil => rfl
  | cons hn _ ih => rw [outputsOf_cons, outputsOf_cons, hn.outputCount?_eq, ih]

theorem Typed.mapM_outputCount? {ns : List Node} (h : Typed table scope nested ns) :
    ns.mapM outputCount? = some (ns.map fun n => n.outputCount?.getD 0) := by
  induction h with
  | nil => rfl
  | value _ _ ih => simp [List.mapM_cons, ih, outputCount?]
  | reference _ _ ih => simp [List.mapM_cons, ih, outputCount?]
  | call _ _ hr _ _ _ _ _ ih => simp [List.mapM_cons, ih, outputCount?, hr.outputs]

theorem Typed.firstUnresolved?_eq_none {ns : List Node} (h : Typed table scope nested ns) :
    firstUnresolved? ns = none := by
  induction h with
  | nil => rfl
  | value _ _ ih => simp [firstUnresolved?, unresolved?, ih]
  | reference _ _ ih => simp [firstUnresolved?, unresolved?, ih]
  | call _ ho hr _ _ _ _ ihp ih =>
    simp [firstUnresolved?, unresolved?, ho, hr.operand, hr.outputs, ihp, ih]

inductive Occurs (n : Node) : Node → Prop
  | self : Occurs n n
  | parameter {head : Call} {params : List Node} {tags : List Label} {p : Node} :
      p ∈ params → Occurs n p → Occurs n (.call head params tags)

def parameters : Node → List Node
  | .call _ params _ => params
  | _ => []

theorem occurs_of_mem_parameters {n p : Node} (hp : p ∈ n.parameters) : p.Occurs n := by
  cases n with
  | call head params tags => exact .parameter hp .self
  | value | reference => cases hp

/-- What is needed of a node itself, whatever its parameters are. -/
def IsKnown : Node → Prop
  | .value _ v _ _ => v.isSome = true
  | .reference .. => True
  | .call head _ _ =>
    head.opcode.isSome = true ∧ head.operand.isSome = true ∧ head.outputs.isSome = true

theorem Typed.of_occurs {n root : Node} (ho : n.Occurs root)
    (h : Typed table scope nested [root]) : ∃ b, Typed table scope b [n] := by
  induction ho generalizing nested with
  | self => exact ⟨nested, h⟩
  | parameter hm _ ih =>
    cases h with
    | call _ _ _ _ _ hp _ => exact ih (typed_iff_forall.mp hp _ hm)

theorem Typed.isKnown {n : Node} (h : Typed table scope nested [n]) : n.IsKnown := by
  cases h with
  | value _ _ => rfl
  | reference _ _ => trivial
  | call _ ho hr _ _ _ _ => exact ⟨by simp [ho], by simp [hr.operand], by simp [hr.outputs]⟩

end Node

end Wordcode
