import Wordcode.Proofs.Codec
import Wordcode.Proofs.Emission
import Wordcode.Toolchain

namespace Wordcode

namespace Machine

/-- What is known of a value before anything is computed: it is a number, or the output of an
opcode at an index. -/
inductive Value where
  | number (n : Nat)
  | output (opcode operand : UInt16) (inputs : List Value) (index : Nat)
deriving Repr, Inhabited

/-- Runs one word on a stack whose lowest value comes first. There is no result if a value or
constant is missing. -/
def step (table : Table) (memory : UInt16) (code : Bytecode) (stack : List Value)
    (i : Instruction) : Option (List Value) :=
  if i.opcode = memory then
    match Region.ofOperand i.operand with
    | (.constant, index) => (code.constant index).toOption.map fun n => stack ++ [.number n]
    | (.stack, index) => stack[index]?.map fun v => stack ++ [v]
  else do
    let op ← table.get? i.opcode
    let inputs ← op.inputCount i.operand
    let outputs ← op.outputCount i.operand
    if inputs ≤ stack.length then
      let rest := stack.length - inputs
      some (stack.take rest ++
        (List.range outputs).map (.output i.opcode i.operand (stack.drop rest)))
    else none

def run (table : Table) (memory : UInt16) (code : Bytecode) (stack : List Value)
    (is : List Instruction) : Option (List Value) :=
  is.foldlM (step table memory code) stack

end Machine

open Machine (Value)

/-- The names of a source so far, each with its value. -/
abbrev Bindings := List (String × Value)

namespace Node

mutual

/-- The values that a node stands for. -/
def denote (memory : UInt16) (code : Bytecode) (bound : Bindings) : Node → Option (List Value)
  | .value _ v _ _ => v.map fun n => [.number n]
  | .reference name _ _ => (bound.find? (·.1 == name)).map fun b => [b.2]
  | .call head params _ => do
    let number ← head.opcode
    let operand ← head.operand
    let outputs ← head.outputs
    let inputs ← denoteAll memory code bound params
    if number = memory then
      match Region.ofOperand operand with
      | (.constant, index) => (code.constant index).toOption.map fun n => [.number n]
      | (.stack, index) => bound[index]?.map fun b => [b.2]
    else some ((List.range outputs).map (.output number operand inputs))

def denoteAll (memory : UInt16) (code : Bytecode) (bound : Bindings) :
    List Node → Option (List Value)
  | [] => some []
  | n :: rest => do
    let vs ← n.denote memory code bound
    let ws ← denoteAll memory code bound rest
    return vs ++ ws

end

end Node

/-- A statement gives its names to the values of its nodes by their order. -/
def Statement.denote (memory : UInt16) (code : Bytecode) (bound : Bindings) (s : Statement) :
    Option Bindings := do
  let vs ← Node.denoteAll memory code bound s.nodes
  return bound ++ (s.labels.map (·.name)).zip vs

def Source.denote (memory : UInt16) (code : Bytecode) (s : Source) : Option Bindings :=
  s.statements.foldlM (Statement.denote memory code) []

namespace Machine

variable {table : Table} {memory : UInt16} {code : Bytecode}

theorem run_append (stack : List Value) (is js : List Instruction) :
    run table memory code stack (is ++ js) =
      (run table memory code stack is).bind fun s => run table memory code s js := by
  simp [run, List.foldlM_append]

theorem run_cons (stack : List Value) (i : Instruction) (is : List Instruction) :
    run table memory code stack (i :: is) =
      (step table memory code stack i).bind fun s => run table memory code s is := by
  simp [run, List.foldlM_cons]

theorem step_constant {i : Instruction} {index n : Nat} (hi : i.opcode = memory)
    (hr : Region.ofOperand i.operand = (.constant, index)) (hc : code.constant index = .ok n)
    (stack : List Value) :
    step table memory code stack i = some (stack ++ [.number n]) := by
  simp [step, hi, hr, hc, Except.toOption]

theorem step_stack {i : Instruction} {index : Nat} {v : Value} (hi : i.opcode = memory)
    (hr : Region.ofOperand i.operand = (.stack, index)) {stack : List Value}
    (hv : stack[index]? = some v) :
    step table memory code stack i = some (stack ++ [v]) := by
  simp [step, hi, hr, hv]

theorem step_call {number operand : UInt16} {op : Opcode} {inputs outputs : Nat}
    (hn : number ≠ memory) (hg : table.get? number = some op)
    (hi : op.inputCount operand = some inputs) (ho : op.outputCount operand = some outputs)
    (stack : List Value) {vs : List Value} (hv : vs.length = inputs) :
    step table memory code (stack ++ vs) ⟨number, operand⟩ =
      some (stack ++ (List.range outputs).map (.output number operand vs)) := by
  subst hv
  simp [step, hn, hg, hi, ho]

end Machine

theorem Scope.find?_of_slot? {before : List Label} {bound : Bindings} {name : String} {slot : Nat}
    (hb : bound.map (·.1) = before.map (·.name))
    (hs : (Scope.after before).slot? name = some slot) :
    ∃ b, bound[slot]? = some b ∧ bound.find? (·.1 == name) = some b := by
  have hbinds := binds_eq_beq hs
  rw [slot?_after] at hs
  have hi : bound.findIdx? (·.1 == name) = some slot := by
    have hf := congrArg (List.findIdx? (· == name)) hb
    rw [List.findIdx?_map, List.findIdx?_map] at hf
    rw [hbinds] at hs
    exact hf.trans hs
  have hlt : slot < bound.length := (List.findIdx?_eq_some_iff_findIdx_eq.mp hi).1
  refine ⟨bound[slot], List.getElem?_eq_getElem hlt, ?_⟩
  rw [List.find?_eq_bind_findIdx?_getElem?, hi, Option.bind_some, List.getElem?_eq_getElem hlt]

theorem Node.denoteAll_cons {memory : UInt16} {code : Bytecode} {bound : Bindings} {n : Node}
    {rest : List Node} {vs ws : List Value} (hv : n.denote memory code bound = some vs)
    (hw : denoteAll memory code bound rest = some ws) :
    denoteAll memory code bound (n :: rest) = some (vs ++ ws) := by
  simp [denoteAll, hv, hw]

namespace Emits

variable {table : Table} {memory : UInt16} {code : Bytecode} {before : List Label}
  {bound : Bindings}

theorem call_step {pool : Pool} {head : Call} {params : List Node} (tags : List Label)
    {number : UInt16} {op : Opcode} {r : Resolution} {inputs : List Value}
    (hm : table.Reads memory) (hget : table.get? number = some op) (ho : head.opcode = some number)
    (hr : head.Resolves r)
    (hacc : op.Accepts (head.arguments.map (·.value)) params.length r.operand r.outputs)
    (hcan : number = memory → (⟨pool, []⟩ : Code).canRead (Scope.after before)
      (Region.ofOperand r.operand).1 (Region.ofOperand r.operand).2 = true)
    (hc : code.Knows pool) (hb : bound.map (·.1) = before.map (·.name))
    (hd : Node.denoteAll memory code bound params = some inputs)
    (hlen : inputs.length = params.length) :
    ∃ outputs, Node.denote memory code bound (.call head params tags) = some outputs ∧
      outputs.length = r.outputs ∧
      ∀ between, Machine.step table memory code (bound.map (·.2) ++ between ++ inputs)
        ⟨number, r.operand⟩ = some (bound.map (·.2) ++ between ++ outputs) := by
  by_cases hn : number = memory
  · subst hn
    obtain ⟨read, hm, hread⟩ := hm
    rw [hget, Option.some.injEq] at hm
    subst hm
    obtain ⟨hin, hout⟩ := hacc.of_isRead hread
    rw [hin, List.length_eq_zero_iff] at hlen
    subst hlen
    have hcan := hcan rfl
    rcases hregion : Region.ofOperand r.operand with ⟨region, index⟩
    rw [hregion] at hcan
    cases region with
    | constant =>
      obtain ⟨v, hv⟩ := Code.constant_of_canRead hcan
      have hk := hc index v hv
      refine ⟨[.number v], ?_, hout.symm, ?_⟩
      · simp [Node.denote, ho, hr.operand, hr.outputs, hd, hregion, hk, Except.toOption]
      · intro between
        rw [List.append_nil]
        exact Machine.step_constant rfl hregion hk _
    | stack =>
      have hlt : index < bound.length := by
        have hl := congrArg List.length hb
        simp only [List.length_map] at hl
        rw [hl]
        exact Code.slot_of_canRead hcan
      refine ⟨[bound[index].2], ?_, hout.symm, ?_⟩
      · simp [Node.denote, ho, hr.operand, hr.outputs, hd, hregion, hlt]
      · intro between
        rw [List.append_nil]
        refine Machine.step_stack rfl hregion ?_
        rw [List.getElem?_append_left (by simpa using hlt)]
        simp [hlt]
  · refine ⟨(List.range r.outputs).map (.output number r.operand inputs), ?_, by simp, ?_⟩
    · simp [Node.denote, ho, hr.operand, hr.outputs, hd, hn]
    · intro between
      exact Machine.step_call hn hget hacc.takes hacc.gives _ hlen

/-- The words of nodes put the values of the nodes on the stack, if the values of the names are at
its bottom. What lies between are the values of the parameters of the calls around them. -/
theorem run {nested : Bool} {pool pool' : Pool} {ns : List Node} {ws : List Instruction}
    (h : Emits table memory (Scope.after before) nested pool ns ws pool') (hg : pool.Good)
    (hm : table.Reads memory) (hc : code.Knows pool')
    (hb : bound.map (·.1) = before.map (·.name)) :
    ∃ vs, Node.denoteAll memory code bound ns = some vs ∧ vs.length = Node.outputsOf ns ∧
      ∀ between, Machine.run table memory code (bound.map (·.2) ++ between) ws =
        some (bound.map (·.2) ++ between ++ vs) := by
  induction h with
  | nil => exact ⟨[], by simp [Node.denoteAll], rfl, by simp [Machine.run]⟩
  | @value _ pool pool₁ pool₂ raw n i p tags rest w ws hr ha hw he ih =>
    obtain ⟨hg₁, -⟩ := hg.add (Literal.read_le hr) ha
    obtain ⟨vs, hd, hlen, hrun⟩ := ih hg₁ hc
    obtain ⟨hop, hregion⟩ := Instruction.memory?_eq_some hw
    have hi : pool₂.values.toList[i]? = some n :=
      Pool.getElem?_of_prefix (he.pool_good hg₁).2 (hg.valid.add ha).2.2
    have hv : Node.denote memory code bound (.value raw (some n) p tags) = some [.number n] := by
      simp [Node.denote]
    refine ⟨.number n :: vs, Node.denoteAll_cons hv hd, ?_, ?_⟩
    · simp [Node.outputCount?, hlen, Nat.add_comm]
    · intro between
      rw [Machine.run_cons, Machine.step_constant hop hregion (hc i n hi), Option.bind_some,
        List.append_assoc, hrun]
      simp
  | @reference _ pool pool₁ name slot p tags rest w ws hs hw he ih =>
    obtain ⟨vs, hd, hlen, hrun⟩ := ih hg hc
    obtain ⟨hop, hregion⟩ := Instruction.memory?_eq_some hw
    obtain ⟨b, hslot, hfind⟩ := Scope.find?_of_slot? hb hs
    have hv : Node.denote memory code bound (.reference name p tags) = some [b.2] := by
      simp [Node.denote, hfind]
    refine ⟨b.2 :: vs, Node.denoteAll_cons hv hd, ?_, ?_⟩
    · simp [Node.outputCount?, hlen, Nat.add_comm]
    · intro between
      have hlt : slot < bound.length := (List.getElem?_eq_some_iff.mp hslot).1
      have hv : (bound.map (·.2) ++ between)[slot]? = some b.2 := by
        rw [List.getElem?_append_left (by simpa using hlt), List.getElem?_map, hslot]
        rfl
      rw [Machine.run_cons, Machine.step_stack hop hregion hv, Option.bind_some,
        List.append_assoc, hrun]
      simp
  | @call _ pool pool₁ pool₂ head params tags rest number op r ws₁ ws₂ hget ho hr hacc hone hcan
      hparams hrest ihp ih =>
    obtain ⟨hg₁, -⟩ := hparams.pool_good hg
    obtain ⟨-, hp₂⟩ := hrest.pool_good hg₁
    have hc₁ := hc.of_prefix hp₂
    obtain ⟨inputs, hdp, hlenp, hrunp⟩ := ihp hg hc₁
    obtain ⟨vs, hd, hlen, hrun⟩ := ih hg₁ hc
    rw [hparams.outputsOf_nested] at hlenp
    obtain ⟨outputs, hv, hlo, hstep⟩ :=
      call_step tags hm hget ho hr hacc hcan hc₁ hb hdp hlenp
    refine ⟨outputs ++ vs, Node.denoteAll_cons hv hd, ?_, ?_⟩
    · simp [Node.outputCount?, hr.outputs, hlo, hlen]
    · intro between
      rw [Machine.run_append, hrunp, Option.bind_some, Machine.run_cons, hstep, Option.bind_some,
        List.append_assoc, hrun]
      simp

end Emits

theorem EmitsAll.run {table : Table} {memory : UInt16} {code : Bytecode} {before : List Label}
    {bound : Bindings} {pool pool' : Pool} {ss : List Statement} {ws : List Instruction}
    (h : EmitsAll table memory before pool ss ws pool') (hg : pool.Good)
    (hm : table.Reads memory) (hc : code.Knows pool')
    (hb : bound.map (·.1) = before.map (·.name)) :
    ∃ bound', ss.foldlM (Statement.denote memory code) bound = some bound' ∧
      bound'.map (·.1) = (before ++ ss.flatMap (·.labels)).map (·.name) ∧
      Machine.run table memory code (bound.map (·.2)) ws = some (bound'.map (·.2)) := by
  induction h generalizing bound with
  | nil => exact ⟨bound, by simp, by simpa using hb, by simp [Machine.run]⟩
  | @cons before pool pool₁ pool₂ s rest ws₁ ws₂ hs he hrest ih =>
    obtain ⟨hg₁, -⟩ := he.pool_good hg
    obtain ⟨-, hp₂⟩ := hrest.pool_good hg₁
    obtain ⟨vs, hd, hlen, hrun⟩ := he.run hg hm (hc.of_prefix hp₂) hb
    rw [hs.balanced] at hlen
    have hnames : ((s.labels.map (·.name)).zip vs).map (·.1) = s.labels.map (·.name) :=
      List.map_fst_zip (by simp [hlen])
    have hvalues : ((s.labels.map (·.name)).zip vs).map (·.2) = vs :=
      List.map_snd_zip (by simp [hlen])
    have hnext : (bound ++ (s.labels.map (·.name)).zip vs).map (·.1) =
        (before ++ s.labels).map (·.name) := by
      rw [List.map_append, hb, hnames, List.map_append]
    obtain ⟨bound', hd', hb', hrun'⟩ := ih hg₁ hc hnext
    refine ⟨bound', ?_, by simpa using hb', ?_⟩
    · simp only [List.foldlM_cons, Statement.denote, hd, Option.bind_eq_bind, Option.bind_some,
        Option.pure_def]
      exact hd'
    · have hrun := hrun []
      simp only [List.append_nil] at hrun
      rw [Machine.run_append, hrun, Option.bind_some]
      rw [List.map_append, hvalues] at hrun'
      exact hrun'

theorem EmitsSources.run {table : Table} {memory : UInt16} {code : Bytecode}
    {pool pool' : Pool} {ss : List Source} {wss : List (List Instruction)}
    (h : EmitsSources table memory pool ss wss pool') (hg : pool.Good)
    (hm : table.Reads memory) (hc : code.Knows pool') :
    List.Forall₂ (fun s ws => ∃ bound, Source.denote memory code s = some bound ∧
      bound.map (·.1) = s.labels.map (·.name) ∧
      Machine.run table memory code [] ws = some (bound.map (·.2))) ss wss := by
  induction h with
  | nil => exact .nil
  | cons he hrest ih =>
    obtain ⟨hg₁, -⟩ := he.pool_good hg
    obtain ⟨-, hp₂⟩ := hrest.pool_good hg₁
    have hb : ([] : Bindings).map (·.1) = ([] : List Label).map (·.name) := rfl
    have hs := he.run hg hm (hc.of_prefix hp₂) hb
    exact .cons hs (ih hg₁ hc)

namespace Toolchain

/-- Compiled code computes what the text says: no word is short of values, no read goes to a
constant or slot that is missing, and at the end of each source the stack holds the values of its
names, in their order and nothing else. -/
theorem compile_executes (tools : Toolchain) (text : List Char) (code : Bytecode)
    (memory : UInt16) (read : Opcode)
    (hl : tools.table.lookup tools.settings.memoryOpcode = some (memory, read))
    (hread : read.IsRead) (h : tools.compile text = .ok code) :
    List.Forall₂ (fun source bytes => ∃ bound, Source.denote memory code source = some bound ∧
      bound.map (·.1) = source.labels.map (·.name) ∧
      Machine.run tools.table memory code [] (Instruction.decode bytes) = some (bound.map (·.2)))
      (tools.read text).sources code.sources := by
  obtain ⟨number, op, wss, pool, hl', -, he, hcode⟩ := Document.compile_emits h
  rw [hl, Option.some.injEq, Prod.mk.injEq] at hl'
  obtain ⟨rfl, rfl⟩ := hl'
  obtain ⟨hg, -⟩ := he.pool_good Pool.good_empty
  have hc : code.Knows pool := by
    rw [hcode]
    exact hg.knows _
  have hruns := he.run Pool.good_empty ⟨read, Table.get?_of_lookup hl, hread⟩ hc
  have hsources : code.sources = wss.map Instruction.encode := by rw [hcode]
  rw [hsources, List.forall₂_map_right_iff]
  simp only [Instruction.decode_encode]
  exact hruns

theorem compile_executes_outputs :
    let text := "a b: call<1 2>(1 2), c: add(a 1), : ensure(c), _ _: read-memory<1 0>() b;".toList
    let words : List Instruction := [⟨0, 1⟩, ⟨0, 3⟩, ⟨24, 0x122⟩, ⟨0, 0⟩, ⟨0, 1⟩, ⟨1, 2⟩, ⟨0, 4⟩,
      ⟨16, 1⟩, ⟨0, 2⟩, ⟨0, 2⟩]
    let code : Bytecode := ⟨[Instruction.encode words], ["1", "2"]⟩
    builtin.compile text = .ok code ∧
      List.Forall₂ (fun source bytes => ∃ bound, Source.denote 0 code source = some bound ∧
        bound.map (·.1) = source.labels.map (·.name) ∧
        Machine.run Table.builtin 0 code [] (Instruction.decode bytes) = some (bound.map (·.2)))
        (builtin.read text).sources code.sources := by
  intro text words code
  have h : builtin.compile text = .ok code := by decide +kernel
  obtain ⟨read, hl, hread⟩ := Table.lookup_builtin_memory
  exact ⟨h, compile_executes builtin text code 0 read hl hread h⟩

end Toolchain

end Wordcode
