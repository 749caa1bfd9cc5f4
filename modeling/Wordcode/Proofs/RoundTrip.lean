import Wordcode.Proofs.Progress
import Wordcode.Proofs.Recompile

namespace Wordcode

theorem Pool.extend_of_mem {values : List Nat} {v : Nat} (h : v ∈ values) :
    extend values v = values :=
  if_pos h

theorem Emits.call_performs {memory number operand : UInt16} {scope : Scope} {pool pool' : Pool}
    (hcan : number = memory → (⟨pool, []⟩ : Code).canRead scope (Region.ofOperand operand).1
      (Region.ofOperand operand).2 = true)
    (hp : pool.values.toList <+: pool'.values.toList) :
    ∃ a, Instruction.action? memory (pool'.values.toList[·]?) ⟨number, operand⟩ = some a ∧
      (Action.constants [a]).foldl Pool.extend pool.values.toList = pool.values.toList := by
  by_cases hn : number = memory
  · have hcan := hcan hn
    rcases hregion : Region.ofOperand operand with ⟨region, index⟩
    rw [hregion] at hcan
    cases region with
    | constant =>
      obtain ⟨v, hv⟩ := Code.constant_of_canRead hcan
      exact ⟨.constant v, Instruction.action?_constant hn hregion (Pool.getElem?_of_prefix hp hv),
        Pool.extend_of_mem (List.mem_of_getElem? hv)⟩
    | stack => exact ⟨.slot index, Instruction.action?_stack hn hregion, rfl⟩
  · exact ⟨.run number operand, Instruction.action?_run hn, rfl⟩

/-- The words do actions whose constants are those that went to the pool. -/
theorem Emits.performs {table : Table} {memory : UInt16} {scope : Scope} {nested : Bool}
    {pool pool' : Pool} {ns : List Node} {ws : List Instruction}
    (h : Emits table memory scope nested pool ns ws pool') (hg : pool.Good) :
    ∃ as, Performs memory (pool'.values.toList[·]?) ws as ∧
      pool'.values.toList = (Action.constants as).foldl Pool.extend pool.values.toList := by
  induction h with
  | nil => exact ⟨[], .nil, rfl⟩
  | @value nested pool pool₁ pool₂ raw n i p tags rest w ws hr ha hw he ih =>
    obtain ⟨hg₁, -⟩ := hg.add (Literal.read_le hr) ha
    obtain ⟨hop, hregion⟩ := Instruction.memory?_eq_some hw
    obtain ⟨-, hextend, hi⟩ := hg.valid.add ha
    obtain ⟨as, hperf, hvalues⟩ := ih hg₁
    have hn := Pool.getElem?_of_prefix (he.pool_good hg₁).2 hi
    refine ⟨.constant n :: as, .cons (Instruction.action?_constant hop hregion hn) hperf, ?_⟩
    rw [hvalues, hextend]
    rfl
  | @reference nested pool pool₁ name slot p tags rest w ws hslot hw he ih =>
    obtain ⟨hop, hregion⟩ := Instruction.memory?_eq_some hw
    obtain ⟨as, hperf, hvalues⟩ := ih hg
    exact ⟨.slot slot :: as, .cons (Instruction.action?_stack hop hregion) hperf, hvalues⟩
  | @call nested pool pool₁ pool₂ head params tags rest number op r ws₁ ws₂ hget ho hr hacc hone
      hcan hparams hrest ihp ih =>
    obtain ⟨hg₁, -⟩ := hparams.pool_good hg
    obtain ⟨-, hp₂⟩ := hrest.pool_good hg₁
    obtain ⟨as₁, hperf₁, hvalues₁⟩ := ihp hg
    obtain ⟨as₂, hperf₂, hvalues₂⟩ := ih hg₁
    have hperf₁ := hperf₁.mono fun _ _ => Pool.getElem?_of_prefix hp₂
    obtain ⟨a, ha, hsame⟩ := call_performs hcan hp₂
    refine ⟨as₁ ++ ([a] ++ as₂), hperf₁.append (.cons ha hperf₂), ?_⟩
    rw [Action.constants_append, Action.constants_append, List.foldl_append, List.foldl_append,
      ← hvalues₁, hsame, hvalues₂]

theorem EmitsAll.performs {table : Table} {memory : UInt16} {before : List Label}
    {pool pool' : Pool} {ss : List Statement} {ws : List Instruction}
    (h : EmitsAll table memory before pool ss ws pool') (hg : pool.Good) :
    ∃ as, Performs memory (pool'.values.toList[·]?) ws as ∧
      pool'.values.toList = (Action.constants as).foldl Pool.extend pool.values.toList := by
  induction h with
  | nil => exact ⟨[], .nil, rfl⟩
  | cons _ he hrest ih =>
    obtain ⟨hg₁, -⟩ := he.pool_good hg
    obtain ⟨-, hp₂⟩ := hrest.pool_good hg₁
    obtain ⟨as₁, hperf₁, hvalues₁⟩ := he.performs hg
    obtain ⟨as₂, hperf₂, hvalues₂⟩ := ih hg₁
    have hperf₁ := hperf₁.mono fun _ _ => Pool.getElem?_of_prefix hp₂
    refine ⟨as₁ ++ as₂, hperf₁.append hperf₂, ?_⟩
    rw [Action.constants_append, List.foldl_append, ← hvalues₁, hvalues₂]

theorem EmitsSources.performs {table : Table} {memory : UInt16} {pool pool' : Pool}
    {ss : List Source} {wss : List (List Instruction)}
    (h : EmitsSources table memory pool ss wss pool') (hg : pool.Good) :
    ∃ ass, List.Forall₂ (Performs memory (pool'.values.toList[·]?)) wss ass ∧
      pool'.values.toList =
        (Action.constants ass.flatten).foldl Pool.extend pool.values.toList := by
  induction h with
  | nil => exact ⟨[], .nil, rfl⟩
  | cons he hrest ih =>
    obtain ⟨hg₁, -⟩ := he.pool_good hg
    obtain ⟨-, hp₂⟩ := hrest.pool_good hg₁
    obtain ⟨as, hperf, hvalues⟩ := he.performs hg
    obtain ⟨ass, hperfs, hvalues'⟩ := ih hg₁
    have hperf := hperf.mono fun _ _ => Pool.getElem?_of_prefix hp₂
    refine ⟨as :: ass, .cons hperf hperfs, ?_⟩
    rw [List.flatten_cons, Action.constants_append, List.foldl_append, ← hvalues, hvalues']

theorem Region.ofOperand_injective : Function.Injective ofOperand := by
  intro o o' h
  have ho := operand?_ofOperand o
  rw [h, operand?_ofOperand o', Option.some.injEq] at ho
  exact ho.symm

theorem Instruction.leftUnique_action? {memory : UInt16} {constant? : Nat → Option Nat}
    (hc : ∀ i j v, constant? i = some v → constant? j = some v → i = j) :
    Relator.LeftUnique fun (i : Instruction) a => i.action? memory constant? = some a := by
  intro i j a hi hj
  have hsame : i.opcode = j.opcode → Region.ofOperand i.operand = Region.ofOperand j.operand →
      i = j := by
    intro hopcode hoperand
    cases i
    cases j
    simp_all [Region.ofOperand_injective.eq_iff]
  cases a with
  | constant v =>
    obtain ⟨hm, k, hr, hk⟩ := action?_eq_constant hi
    obtain ⟨hm', k', hr', hk'⟩ := action?_eq_constant hj
    exact hsame (hm.trans hm'.symm) (by rw [hr, hr', hc k k' v hk hk'])
  | slot k =>
    obtain ⟨hm, hr⟩ := action?_eq_slot hi
    obtain ⟨hm', hr'⟩ := action?_eq_slot hj
    exact hsame (hm.trans hm'.symm) (hr.trans hr'.symm)
  | run opcode operand =>
    rw [(action?_eq_run hi).2, (action?_eq_run hj).2]

theorem Instruction.rightUnique_action? (memory : UInt16) (constant? : Nat → Option Nat) :
    Relator.RightUnique fun (i : Instruction) a => i.action? memory constant? = some a := by
  intro i a b ha hb
  rw [ha] at hb
  exact Option.some.inj hb

theorem Pool.Valid.index_unique {pool : Pool} (h : pool.Valid) (i j v : Nat)
    (hi : pool.values.toList[i]? = some v) (hj : pool.values.toList[j]? = some v) : i = j := by
  have hi := (h v i).mpr hi
  have hj := (h v j).mpr hj
  rw [hi] at hj
  exact Option.some.inj hj

theorem Performs.sources_unique {memory : UInt16} {pool pool' : Pool}
    {wss wss' : List (List Instruction)} {ass : List (List Action)} (hv : pool.Valid)
    (hvalues : pool'.values.toList = pool.values.toList)
    (h : List.Forall₂ (Performs memory (pool.values.toList[·]?)) wss ass)
    (h' : List.Forall₂ (Performs memory (pool'.values.toList[·]?)) wss' ass) : wss' = wss := by
  rw [hvalues] at h'
  exact (Instruction.leftUnique_action? hv.index_unique).forall₂.forall₂ h' h

/-- The entries make a table whose memory opcode reads one value, and arguments can be recovered
from the operands of all of them. -/
structure Table.IsReversible (table : Table) (entries : List Opcode) (memory : String) : Prop where
  built : ofEntries entries = .ok table
  reads : ∃ number read, table.lookup memory = some (number, read) ∧ read.IsRead
  invertible : ∀ op ∈ entries, op.IsInvertible

theorem Table.IsReversible.replayable {table : Table} {entries : List Opcode} {memory : String}
    (h : table.IsReversible entries memory) {number : UInt16} {op : Opcode}
    (hl : table.lookup memory = some (number, op)) : table.Replayable number := by
  refine ⟨ofEntries_valid h.built, ?_, ?_⟩
  · intro k op hg
    exact h.invertible op (List.fst_mem_of_mem_zipIdx (mem_of_get? h.built hg))
  · obtain ⟨k, read, hr, hread⟩ := h.reads
    rw [hl, Option.some.injEq, Prod.mk.injEq] at hr
    obtain ⟨rfl, rfl⟩ := hr
    exact ⟨op, get?_of_lookup hl, hread⟩

theorem Table.builtin_isReversible : builtin.IsReversible Builtin.opcodes "read-memory" := by
  obtain ⟨read, hl, hread⟩ := lookup_builtin_memory
  exact ⟨ofEntries_builtin, ⟨0, read, hl, hread⟩, Builtin.isInvertible⟩

namespace Document

/-- Code that was compiled can be decompiled, and the text gives the same code again, byte for byte
and with the same constants. -/
theorem compile_decompile_compile :
    Table.builtin.IsReversible Builtin.opcodes "read-memory" ∧
      ∀ (table : Table) (entries : List Opcode) (name : String),
        table.IsReversible entries name → ∀ (text : List Char) (code : Bytecode),
          (read table text).compile table name = .ok code →
          ∃ text' : String, code.decompile table name = .ok text' ∧
            (read table text'.toList).compile table name = .ok code := by
  refine ⟨Table.builtin_isReversible, ?_⟩
  intro table entries name ht text code h
  obtain ⟨number, op, wss, pool, hl, -, he, rfl⟩ := compile_emits h
  have hreplayable := ht.replayable hl
  obtain ⟨hg, -⟩ := he.pool_good Pool.good_empty
  have hc := hg.knows (wss.map Instruction.encode)
  obtain ⟨script, hscript⟩ := he.replay hreplayable Pool.good_empty hc 0 []
  have hscript : (⟨wss.map Instruction.encode, pool.texts⟩ : Bytecode).script table name =
      .ok script := by
    rw [Bytecode.script, hl]
    exact hscript
  obtain ⟨-, wss', pool', ass', hcompile, hgood', hvalues', hactions', hperfs'⟩ :=
    Bytecode.recompile hreplayable.valid hl hscript
  obtain ⟨ass, hperfs, hvalues⟩ := he.performs Pool.good_empty
  have hactions : List.Forall₂ (Performs number
      (⟨wss.map Instruction.encode, pool.texts⟩ : Bytecode).constant?) wss ass := by
    refine hperfs.imp fun ws as hp => hp.mono ?_
    intro i v hi
    exact Bytecode.constant?_eq_some.mpr (hc i v hi)
  -- the new code does what the old one does, so that it reads the same constants in their order
  have hass : ass' = ass := by
    rw [List.forall₂_map_left_iff] at hactions'
    simp only [Instruction.decode_encode] at hactions'
    exact (Instruction.rightUnique_action? number _).forall₂.forall₂
      (hactions'.imp fun _ _ hp => hp.2) hactions
  have hpool : pool'.values.toList = pool.values.toList := by
    rw [hvalues', hass, hvalues, Pool.foldl_extend]
    simp
  rw [hass] at hperfs'
  refine ⟨script.text, by rw [Bytecode.decompile, hscript]; rfl, ?_⟩
  rw [hcompile, Performs.sources_unique hg.valid hpool hperfs hperfs', Pool.texts, Pool.texts,
    hpool]

theorem compile_decompile_compile_outputs :
    let text := "a b: call<1 2>(0x01 1), c: sum(a 2), : ensure(c), _ _: read-memory<1 0>() b;;" ++
      "_: loop-n<3 4>(read-memory<1 1>());"
    let words : List Instruction := [⟨0, 1⟩, ⟨0, 1⟩, ⟨24, 0x122⟩, ⟨0, 0⟩, ⟨0, 3⟩, ⟨1, 2⟩, ⟨0, 4⟩,
      ⟨16, 1⟩, ⟨0, 2⟩, ⟨0, 2⟩]
    let code : Bytecode :=
      ⟨[Instruction.encode words, [], Instruction.encode [⟨0, 3⟩, ⟨25, 0x3031⟩]], ["1", "2"]⟩
    (read Table.builtin text.toList).compile Table.builtin "read-memory" = .ok code ∧
      ∃ text' : String, code.decompile Table.builtin "read-memory" = .ok text' ∧
        (read Table.builtin text'.toList).compile Table.builtin "read-memory" = .ok code := by
  intro text words code
  have h : (read Table.builtin text.toList).compile Table.builtin "read-memory" = .ok code := by
    decide +kernel
  exact ⟨h, compile_decompile_compile.2 Table.builtin Builtin.opcodes "read-memory"
    Table.builtin_isReversible text.toList code h⟩

end Document

end Wordcode
