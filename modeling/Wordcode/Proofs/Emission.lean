import Wordcode.Compile.Lowering
import Wordcode.Proofs.Documents
import Wordcode.Proofs.Numerals
import Wordcode.Proofs.Pools
import Wordcode.Proofs.Tables

namespace Wordcode

namespace Region

theorem ofOperand_operand? {region : Region} {index : Nat} {operand : UInt16}
    (h : region.operand? index = some operand) : ofOperand operand = (region, index) := by
  unfold operand? at h
  split at h
  · rename_i hi
    simp only [Option.some.injEq] at h
    subst h
    simp only [Instruction.maxIndex] at hi
    cases region with
    | stack =>
      have hn : (UInt16.ofNat (2 * index + 0)).toNat = 2 * index := by
        simp [UInt16.toNat_ofNat']
        omega
      simp only [ofOperand, reduceCtorEq, if_false, hn]
      simp
    | constant =>
      have hn : (UInt16.ofNat (2 * index + 1)).toNat = 2 * index + 1 := by
        simp [UInt16.toNat_ofNat']
        omega
      simp only [ofOperand, if_true, hn]
      simp
      omega
  · simp at h

theorem operand?_ofOperand (operand : UInt16) :
    (ofOperand operand).1.operand? (ofOperand operand).2 = some operand := by
  have hb := operand.toNat_lt
  unfold ofOperand operand?
  rw [if_pos (by simp only [Instruction.maxIndex]; omega)]
  congr 1
  apply UInt16.toNat_inj.mp
  by_cases hp : operand.toNat % 2 = 1
  · simp [hp, UInt16.toNat_ofNat']
    omega
  · simp [hp, UInt16.toNat_ofNat']
    omega

end Region

namespace Instruction

theorem memory?_eq_some {memory : UInt16} {region : Region} {index : Nat} {w : Instruction}
    (h : memory? memory region index = some w) :
    w.opcode = memory ∧ Region.ofOperand w.operand = (region, index) := by
  simp only [memory?, Option.map_eq_some_iff] at h
  obtain ⟨operand, ho, rfl⟩ := h
  exact ⟨rfl, Region.ofOperand_operand? ho⟩

theorem memory?_of_le (memory : UInt16) (region : Region) {index : Nat} (h : index ≤ maxIndex) :
    ∃ w, memory? memory region index = some w := by
  simp [memory?, Region.operand?, h]

end Instruction

theorem Opcode.Accepts.of_isRead {op : Opcode} {args : List Nat} {params outputs : Nat}
    {operand : UInt16} (h : op.Accepts args params operand outputs) (hr : op.IsRead) :
    params = 0 ∧ outputs = 1 := by
  obtain ⟨hin, hout⟩ := hr operand
  rw [h.takes, Option.some.injEq] at hin
  rw [h.gives, Option.some.injEq] at hout
  exact ⟨hin, hout⟩

/-- The words of nodes, and what becomes of the pool: parameters come before the call that takes
them, numerals and references are memory reads. -/
inductive Emits (table : Table) (memory : UInt16) (scope : Scope) :
    Bool → Pool → List Node → List Instruction → Pool → Prop
  | nil {nested : Bool} {pool : Pool} : Emits table memory scope nested pool [] [] pool
  | value {nested : Bool} {pool pool₁ pool₂ : Pool} {raw : String} {n i : Nat} {p : Position}
      {tags : List Label} {rest : List Node} {w : Instruction} {ws : List Instruction} :
      Literal.read raw = .ok n → pool.add n = some (pool₁, i) →
      Instruction.memory? memory .constant i = some w →
      Emits table memory scope nested pool₁ rest ws pool₂ →
      Emits table memory scope nested pool (.value raw (some n) p tags :: rest) (w :: ws) pool₂
  | reference {nested : Bool} {pool pool₁ : Pool} {name : String} {slot : Nat} {p : Position}
      {tags : List Label} {rest : List Node} {w : Instruction} {ws : List Instruction} :
      scope.slot? name = some slot → Instruction.memory? memory .stack slot = some w →
      Emits table memory scope nested pool rest ws pool₁ →
      Emits table memory scope nested pool (.reference name p tags :: rest) (w :: ws) pool₁
  | call {nested : Bool} {pool pool₁ pool₂ : Pool} {head : Call} {params : List Node}
      {tags : List Label} {rest : List Node} {number : UInt16} {op : Opcode} {r : Resolution}
      {ws₁ ws₂ : List Instruction} :
      table.get? number = some op → head.opcode = some number → head.Resolves r →
      op.Accepts (head.arguments.map (·.value)) params.length r.operand r.outputs →
      (nested = true → r.outputs = 1) →
      (number = memory → (⟨pool₁, []⟩ : Code).canRead scope (Region.ofOperand r.operand).1
        (Region.ofOperand r.operand).2 = true) →
      Emits table memory scope true pool params ws₁ pool₁ →
      Emits table memory scope nested pool₁ rest ws₂ pool₂ →
      Emits table memory scope nested pool (.call head params tags :: rest)
        (ws₁ ++ ⟨number, r.operand⟩ :: ws₂) pool₂

namespace Code

variable {table : Table} {memory : UInt16} {scope : Scope} {nested : Bool}

theorem constant_ok {code code' : Code} {n : Nat} (h : code.constant memory n = .ok code') :
    ∃ pool i w, code.pool.add n = some (pool, i) ∧
      Instruction.memory? memory .constant i = some w ∧ code' = ⟨pool, w :: code.words⟩ := by
  unfold constant at h
  split at h
  · simp at h
  · rename_i pool i ha
    split at h
    · simp at h
    · rename_i w hw
      simp only [Except.ok.injEq] at h
      exact ⟨pool, i, w, ha, hw, h.symm⟩

theorem reference_ok {code code' : Code} {name : String} {p : Position}
    (h : code.reference memory scope name p = .ok code') :
    ∃ slot w, scope.slot? name = some slot ∧
      Instruction.memory? memory .stack slot = some w ∧ code' = ⟨code.pool, w :: code.words⟩ := by
  unfold reference at h
  split at h
  · simp at h
  · rename_i slot hs
    split at h
    · simp at h
    · rename_i w hw
      simp only [Except.ok.injEq] at h
      exact ⟨slot, w, hs, hw, h.symm⟩

theorem call_ok {code code' : Code} {head : Call} {number operand : UInt16}
    (ho : head.opcode = some number) (hr : head.operand = some operand)
    (h : code.call memory scope head = .ok code') :
    (number = memory → code.canRead scope (Region.ofOperand operand).1
      (Region.ofOperand operand).2 = true) ∧
      code' = ⟨code.pool, ⟨number, operand⟩ :: code.words⟩ := by
  unfold call at h
  simp only [ho, hr] at h
  split at h
  · simp at h
  · rename_i hc
    simp only [Except.ok.injEq] at h
    refine ⟨?_, h.symm⟩
    intro hm
    simpa [hm] using hc

theorem constant_of_canRead {pool : Pool} {scope : Scope} {index : Nat}
    (h : (⟨pool, []⟩ : Code).canRead scope .constant index = true) :
    ∃ v, pool.values.toList[index]? = some v := by
  have hlt : index < pool.values.toList.length := by
    rw [Array.length_toList]
    exact of_decide_eq_true h
  exact ⟨_, List.getElem?_eq_getElem hlt⟩

theorem slot_of_canRead {pool : Pool} {before : List Label} {index : Nat}
    (h : (⟨pool, []⟩ : Code).canRead (Scope.after before) .stack index = true) :
    index < before.length := by
  simpa [canRead, Scope.count_after] using h

theorem nodes_cons (code : Code) (memory : UInt16) (scope : Scope) (n : Node) (rest : List Node) :
    code.nodes memory scope (n :: rest) =
      (code.node memory scope n).bind fun code => code.nodes memory scope rest := by
  rw [nodes]
  cases code.node memory scope n <;> rfl

theorem node_call (code : Code) (memory : UInt16) (scope : Scope) (head : Call)
    (params : List Node) (tags : List Label) :
    code.node memory scope (.call head params tags) =
      (code.nodes memory scope params).bind fun code => code.call memory scope head := by
  rw [node]
  cases code.nodes memory scope params <;> rfl

theorem statements_cons (code : Code) (memory : UInt16) (scope : Scope) (s : Statement)
    (rest : List Statement) :
    code.statements memory scope (s :: rest) =
      (code.nodes memory scope s.nodes).bind fun code =>
        code.statements memory (scope.declareAll s.labels) rest := by
  rw [statements]
  cases code.nodes memory scope s.nodes <;> rfl

theorem sources_cons (memory : UInt16) (pool : Pool) (done : List (List Instruction)) (s : Source)
    (rest : List Source) :
    sources memory pool done (s :: rest) =
      (statements memory {} ⟨pool, []⟩ s.statements).bind fun code =>
        sources memory code.pool (code.words.reverse :: done) rest := by
  rw [sources, source]
  cases statements memory {} ⟨pool, []⟩ s.statements <;> rfl

theorem nodes_emits {ns : List Node} (ht : Node.Typed table scope nested ns) {code code' : Code}
    (h : code.nodes memory scope ns = .ok code') :
    ∃ ws, Emits table memory scope nested code.pool ns ws code'.pool ∧
      code'.words = ws.reverse ++ code.words := by
  induction ht generalizing code code' with
  | nil =>
    simp only [nodes, Except.ok.injEq] at h
    subst h
    exact ⟨[], .nil, rfl⟩
  | value hv _ ih =>
    rw [nodes, node] at h
    split at h
    · simp at h
    · rename_i code₁ h₁
      obtain ⟨pool, i, w, ha, hw, rfl⟩ := constant_ok h₁
      obtain ⟨ws, he, hws⟩ := ih h
      exact ⟨w :: ws, .value hv ha hw he, by simp [hws]⟩
  | reference _ _ ih =>
    rw [nodes, node] at h
    split at h
    · simp at h
    · rename_i code₁ h₁
      obtain ⟨slot, w, hs, hw, rfl⟩ := reference_ok h₁
      obtain ⟨ws, he, hws⟩ := ih h
      exact ⟨w :: ws, .reference hs hw he, by simp [hws]⟩
  | call hl ho hr ha hn _ _ ihp ih =>
    rw [nodes, node] at h
    split at h
    · simp at h
    · rename_i code₂ h₂
      split at h₂
      · simp at h₂
      · rename_i code₁ h₁
        obtain ⟨ws₁, he₁, hws₁⟩ := ihp h₁
        obtain ⟨hread, rfl⟩ := call_ok ho hr.operand h₂
        obtain ⟨ws₂, he₂, hws₂⟩ := ih h
        refine ⟨ws₁ ++ ⟨_, _⟩ :: ws₂,
          .call (Table.get?_of_lookup hl) ho hr ha hn hread he₁ he₂, ?_⟩
        simp [hws₁, hws₂]

end Code

/-- A pool in which a compiler keeps its constants. -/
structure Pool.Good (pool : Pool) : Prop where
  valid : pool.Valid
  bounded : ∀ v ∈ pool.values.toList, v ≤ Literal.maxValue

theorem Pool.good_empty : ({} : Pool).Good :=
  ⟨valid_empty, by simp⟩

theorem Pool.Good.add {pool pool' : Pool} (h : pool.Good) {n i : Nat} (hn : n ≤ Literal.maxValue)
    (ha : pool.add n = some (pool', i)) :
    pool'.Good ∧ pool.values.toList <+: pool'.values.toList := by
  obtain ⟨hv, he, -⟩ := h.valid.add ha
  refine ⟨⟨hv, ?_⟩, by rw [he]; exact prefix_extend _ _⟩
  intro v hm
  rw [he, mem_extend] at hm
  rcases hm with hm | rfl
  · exact h.bounded v hm
  · exact hn

/-- The values of the pool are constants of the code, at the same places. -/
def Bytecode.Knows (code : Bytecode) (pool : Pool) : Prop :=
  ∀ i v, pool.values.toList[i]? = some v → code.constant i = .ok v

theorem Bytecode.Knows.of_prefix {code : Bytecode} {pool pool' : Pool} (h : code.Knows pool')
    (hp : pool.values.toList <+: pool'.values.toList) : code.Knows pool :=
  fun i v hi => h i v (Pool.getElem?_of_prefix hp hi)

theorem Pool.Good.knows {pool : Pool} (h : pool.Good) (sources : List (List UInt8)) :
    (⟨sources, pool.texts⟩ : Bytecode).Knows pool := by
  intro i v hi
  have hb := h.bounded v (List.mem_of_getElem? hi)
  have ht : pool.texts[i]? = some (decimal v) := by
    rw [Pool.texts, List.getElem?_map, hi]
    rfl
  simp [Bytecode.constant, ht, Bytecode.readConstant, trimmed_decimal, Literal.read_decimal hb]

namespace Emits

variable {table : Table} {memory : UInt16} {scope : Scope} {nested : Bool} {pool pool' : Pool}
  {ns : List Node} {ws : List Instruction}

theorem pool_good (h : Emits table memory scope nested pool ns ws pool') (hg : pool.Good) :
    pool'.Good ∧ pool.values.toList <+: pool'.values.toList := by
  induction h with
  | nil => exact ⟨hg, List.prefix_refl _⟩
  | value hv ha _ _ ih =>
    obtain ⟨hg₁, hp₁⟩ := hg.add (Literal.read_le hv) ha
    obtain ⟨hg₂, hp₂⟩ := ih hg₁
    exact ⟨hg₂, hp₁.trans hp₂⟩
  | reference _ _ _ ih => exact ih hg
  | call _ _ _ _ _ _ _ _ ihp ih =>
    obtain ⟨hg₁, hp₁⟩ := ihp hg
    obtain ⟨hg₂, hp₂⟩ := ih hg₁
    exact ⟨hg₂, hp₁.trans hp₂⟩

theorem outputsOf_nested (h : Emits table memory scope true pool ns ws pool') :
    Node.outputsOf ns = ns.length := by
  generalize hb : true = b at h
  induction h with
  | nil => rfl
  | value _ _ _ _ ih => simp [Node.outputCount?, ih hb, Nat.add_comm]
  | reference _ _ _ ih => simp [Node.outputCount?, ih hb, Nat.add_comm]
  | call _ _ hr _ hn _ _ _ _ ih =>
    simp [Node.outputCount?, hr.outputs, hn hb.symm, ih hb, Nat.add_comm]

end Emits

/-- The words of statements behind the labels `before`. -/
inductive EmitsAll (table : Table) (memory : UInt16) :
    List Label → Pool → List Statement → List Instruction → Pool → Prop
  | nil {before : List Label} {pool : Pool} : EmitsAll table memory before pool [] [] pool
  | cons {before : List Label} {pool pool₁ pool₂ : Pool} {s : Statement} {rest : List Statement}
      {ws₁ ws₂ : List Instruction} : s.Sound table before →
      Emits table memory (Scope.after before) false pool s.nodes ws₁ pool₁ →
      EmitsAll table memory (before ++ s.labels) pool₁ rest ws₂ pool₂ →
      EmitsAll table memory before pool (s :: rest) (ws₁ ++ ws₂) pool₂

inductive EmitsSources (table : Table) (memory : UInt16) :
    Pool → List Source → List (List Instruction) → Pool → Prop
  | nil {pool : Pool} : EmitsSources table memory pool [] [] pool
  | cons {pool pool₁ pool₂ : Pool} {s : Source} {rest : List Source} {ws : List Instruction}
      {wss : List (List Instruction)} : EmitsAll table memory [] pool s.statements ws pool₁ →
      EmitsSources table memory pool₁ rest wss pool₂ →
      EmitsSources table memory pool (s :: rest) (ws :: wss) pool₂

theorem EmitsAll.pool_good {table : Table} {memory : UInt16} {before : List Label}
    {pool pool' : Pool} {ss : List Statement} {ws : List Instruction}
    (h : EmitsAll table memory before pool ss ws pool') (hg : pool.Good) :
    pool'.Good ∧ pool.values.toList <+: pool'.values.toList := by
  induction h with
  | nil => exact ⟨hg, List.prefix_refl _⟩
  | cons _ he _ ih =>
    obtain ⟨hg₁, hp₁⟩ := he.pool_good hg
    obtain ⟨hg₂, hp₂⟩ := ih hg₁
    exact ⟨hg₂, hp₁.trans hp₂⟩

theorem EmitsSources.pool_good {table : Table} {memory : UInt16} {pool pool' : Pool}
    {ss : List Source} {wss : List (List Instruction)}
    (h : EmitsSources table memory pool ss wss pool') (hg : pool.Good) :
    pool'.Good ∧ pool.values.toList <+: pool'.values.toList := by
  induction h with
  | nil => exact ⟨hg, List.prefix_refl _⟩
  | cons he _ ih =>
    obtain ⟨hg₁, hp₁⟩ := he.pool_good hg
    obtain ⟨hg₂, hp₂⟩ := ih hg₁
    exact ⟨hg₂, hp₁.trans hp₂⟩

namespace Code

variable {table : Table} {memory : UInt16}

theorem statements_emits {ss : List Statement} {before : List Label}
    (hs : Statement.AllSound table before ss) {code code' : Code}
    (h : code.statements memory (Scope.after before) ss = .ok code') :
    ∃ ws, EmitsAll table memory before code.pool ss ws code'.pool ∧
      code'.words = ws.reverse ++ code.words := by
  induction ss generalizing before code with
  | nil =>
    simp only [statements, Except.ok.injEq] at h
    subst h
    exact ⟨[], .nil, rfl⟩
  | cons s ss ih =>
    rw [statements, Scope.declareAll_after] at h
    split at h
    · simp at h
    · rename_i code₁ h₁
      obtain ⟨ws₁, he₁, hws₁⟩ := nodes_emits hs.1.typed h₁
      obtain ⟨ws₂, he₂, hws₂⟩ := ih hs.2 h
      exact ⟨ws₁ ++ ws₂, .cons hs.1 he₁ he₂, by simp [hws₁, hws₂]⟩

theorem sources_emits {ss : List Source}
    (hs : ∀ s ∈ ss, Statement.AllSound table [] s.statements) {pool pool' : Pool}
    {done words : List (List Instruction)}
    (h : sources memory pool done ss = .ok (words, pool')) :
    ∃ wss, EmitsSources table memory pool ss wss pool' ∧ words = done.reverse ++ wss := by
  induction ss generalizing pool done with
  | nil =>
    simp only [sources, Except.ok.injEq, Prod.mk.injEq] at h
    obtain ⟨rfl, rfl⟩ := h
    exact ⟨[], .nil, by simp⟩
  | cons s ss ih =>
    rw [sources] at h
    split at h
    · simp at h
    · rename_i ws pool₁ h₁
      unfold source at h₁
      split at h₁
      · simp at h₁
      · rename_i code hc
        simp only [Except.ok.injEq, Prod.mk.injEq] at h₁
        obtain ⟨rfl, rfl⟩ := h₁
        have hs₀ : Statement.AllSound table [] s.statements := hs s (by simp)
        obtain ⟨ws, he, hws⟩ := statements_emits hs₀ hc
        obtain ⟨wss, hes, rfl⟩ := ih (fun t ht => hs t (by simp [ht])) h
        refine ⟨ws :: wss, .cons he hes, ?_⟩
        simp [hws]

end Code

theorem Document.compile_eq {table : Table} {memory : String} {number : UInt16} {op : Opcode}
    (hm : table.lookup memory = some (number, op)) {text : List Char}
    (h : (Document.read table text).problems = []) :
    (Document.read table text).compile table memory =
      (Code.sources number {} [] (Document.read table text).sources).map fun (sources, pool) =>
        ⟨sources.map Instruction.encode, pool.texts⟩ := by
  have hvalid : (Document.read table text).isValid = true := by simp [isValid, h]
  rw [compile, hvalid, unresolved?_eq_none (read_sound h), hm]
  simp only [Bool.not_true, Bool.false_eq_true, if_false]
  cases Code.sources number {} [] (Document.read table text).sources with
  | error err => rfl
  | ok result => rfl

theorem Document.compile_emits {table : Table} {memory : String} {text : List Char}
    {code : Bytecode} (h : (Document.read table text).compile table memory = .ok code) :
    ∃ number op wss pool, table.lookup memory = some (number, op) ∧
      (Document.read table text).problems = [] ∧
      EmitsSources table number {} (Document.read table text).sources wss pool ∧
      code = ⟨wss.map Instruction.encode, pool.texts⟩ := by
  unfold compile at h
  split at h
  · simp at h
  · rename_i hv
    have hp : (Document.read table text).problems = [] := by
      simpa [isValid] using hv
    split at h
    · simp at h
    · split at h
      · simp at h
      · rename_i number op hl
        split at h
        · simp at h
        · rename_i wss pool hc
          simp only [Except.ok.injEq] at h
          obtain ⟨emitted, he, hw⟩ := Code.sources_emits (read_sound hp) hc
          simp only [List.reverse_nil, List.nil_append] at hw
          exact ⟨number, op, emitted, pool, hl, hp, he, by rw [← h, hw]⟩

end Wordcode
