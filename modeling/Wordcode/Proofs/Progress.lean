import Wordcode.Proofs.Codec
import Wordcode.Proofs.Recovery
import Wordcode.Proofs.Replay

namespace Wordcode

namespace Decompile

namespace Stack

/-- The slots below `bound` are taken, and no others were read. -/
structure ReadsBelow (s : Stack) (bound : Nat) : Prop where
  le_slots : bound ≤ s.slots
  lt_bound : ∀ k, s.referenced.contains k = true → k < bound

/-- The stack `s'` is `s` with terms that take `count` slots on top, where reads are of slots below
`bound`. Parameters are one value for each slot. -/
structure Grows (bound : Nat) (nested : Bool) (s s' : Stack) (count : Nat) : Prop where
  entries : ∃ top, s'.entries = top ++ s.entries ∧
    (nested = true → top.length = count ∧ ∀ e ∈ top, e.isValue = true)
  slots : s'.slots = s.slots + count
  referenced : ∀ k, s'.referenced.contains k = true → s.referenced.contains k = true ∨ k < bound

variable {bound : Nat} {nested : Bool} {s s₁ s' : Stack}

theorem Grows.refl (bound : Nat) (nested : Bool) (s : Stack) : Grows bound nested s s 0 :=
  ⟨⟨[], by simp⟩, rfl, fun _ => .inl⟩

theorem Grows.trans {n m : Nat} (h : Grows bound nested s s₁ n) (h' : Grows bound nested s₁ s' m) :
    Grows bound nested s s' (n + m) := by
  obtain ⟨top, he, ht⟩ := h.entries
  obtain ⟨top', he', ht'⟩ := h'.entries
  refine ⟨⟨top' ++ top, by rw [he', he, List.append_assoc], ?_⟩, ?_, ?_⟩
  · intro hn
    obtain ⟨hlen, hall⟩ := ht hn
    obtain ⟨hlen', hall'⟩ := ht' hn
    refine ⟨by rw [List.length_append, hlen, hlen', Nat.add_comm], ?_⟩
    rw [List.forall_mem_append]
    exact ⟨hall', hall⟩
  · rw [h'.slots, h.slots, Nat.add_assoc]
  · intro k hk
    rcases h'.referenced k hk with hk | hk
    · exact h.referenced k hk
    · exact .inr hk

theorem Grows.readsBelow {n : Nat} (h : Grows bound nested s s' n) (hs : s.ReadsBelow bound) :
    s'.ReadsBelow bound := by
  refine ⟨?_, ?_⟩
  · rw [h.slots]
    exact Nat.le_add_right_of_le hs.le_slots
  · intro k hk
    rcases h.referenced k hk with hk | hk
    · exact hs.lt_bound k hk
    · exact hk

theorem Grows.weaken {n : Nat} (h : Grows bound true s s' n) : Grows bound nested s s' n := by
  obtain ⟨top, he, ht⟩ := h.entries
  exact ⟨⟨top, he, fun _ => ht rfl⟩, h.slots, h.referenced⟩

theorem Grows.pushTerm (s : Stack) (t : Term) {outputs : Nat} (h : nested = true → outputs = 1) :
    Grows bound nested s (s.pushTerm t outputs) outputs := by
  rw [entries_term t outputs []]
  refine ⟨⟨_, rfl, ?_⟩, rfl, fun _ => .inl⟩
  intro hn
  rw [h hn]
  simp [Item.entries, Entry.isValue]

theorem Grows.pushValue (s : Stack) (t : Term) : Grows bound nested s (s.pushValue t) 1 :=
  Grows.pushTerm s t fun _ => rfl

theorem Grows.refer (s : Stack) {k : Nat} (hk : k < bound) :
    Grows bound nested s { s with referenced := s.referenced.insert k } 0 := by
  refine ⟨⟨[], by simp⟩, rfl, ?_⟩
  intro j hj
  simp only [Std.TreeSet.contains_insert, Bool.or_eq_true, Nat.compare_eq_eq, beq_iff_eq] at hj
  rcases hj with rfl | hj
  · exact .inr hk
  · exact .inl hj

theorem readMemory_constant {code : Bytecode} {operand : UInt16} {index v : Nat}
    (hr : Region.ofOperand operand = (.constant, index)) (hv : code.constant index = .ok v) :
    ∃ s', s.readMemory code operand = .ok s' ∧ Grows bound nested s s' 1 :=
  ⟨s.pushValue (literal v), by simp [readMemory, hr, hv], .pushValue s _⟩

theorem readMemory_stack (code : Bytecode) {operand : UInt16} {index : Nat}
    (hr : Region.ofOperand operand = (.stack, index)) (hi : index < bound)
    (hs : s.ReadsBelow bound) :
    ∃ s', s.readMemory code operand = .ok s' ∧ Grows bound nested s s' 1 := by
  have hlt : index < s.slots := Nat.lt_of_lt_of_le hi hs.le_slots
  have hrefer : Grows bound nested s { s with referenced := s.referenced.insert index } 0 :=
    .refer s hi
  have hgrows := hrefer.trans (.pushValue _ (.reference (slotName index)))
  refine ⟨_, ?_, hgrows⟩
  simp [readMemory, hr, hlt]

theorem Grows.pop {count : Nat} (h : Grows bound true s s' count) (hs : s.ReadsBelow bound)
    (name : String) :
    ∃ params, s'.pop name count = .ok (params, { s with referenced := s'.referenced }) := by
  obtain ⟨top, he, ht⟩ := h.entries
  obtain ⟨hlen, hall⟩ := ht rfl
  have htake : s'.entries.take count = top := by rw [he, ← hlen, List.take_left]
  have hdrop : s'.entries.drop count = s.entries := by rw [he, ← hlen, List.drop_left]
  have hslots : s'.slots - count = s.slots := by rw [h.slots, Nat.add_sub_cancel]
  have hnone : (List.range' s.slots count).find? s'.referenced.contains = none := by
    rw [List.find?_eq_none]
    intro k hk hr
    have hlo := (List.mem_range'_1.mp hk).1
    have hlt := (h.readsBelow hs).lt_bound k hr
    have hle := hs.le_slots
    omega
  refine ⟨top.reverse.filterMap (·.term?), ?_⟩
  have hvalues : top.all (·.isValue) = true := List.all_eq_true.mpr hall
  simp [Stack.pop, htake, hdrop, hslots, hnone, hlen, hvalues]

theorem Grows.apply {op : Opcode} {args : List Nat} {params outputs : Nat} {operand : UInt16}
    (h : Grows bound true s s' params) (hs : s.ReadsBelow bound) (hf : op.fault? = none)
    (hi : op.IsInvertible) (ha : op.Accepts args params operand outputs)
    (hn : nested = true → outputs = 1) :
    ∃ s₂, s'.apply op operand = .ok s₂ ∧ Grows bound nested s s₂ outputs := by
  obtain ⟨terms, hpop⟩ := h.pop hs op.name
  have hargs := (Opcode.unpackOperand_iff_least hf ha.arity ha.packs).mpr
    ⟨(hi.zipWith_least hf ha.arity ha.packs).symm, ha.packs⟩
  have hread : Grows bound nested s { s with referenced := s'.referenced } 0 :=
    ⟨⟨[], by simp⟩, rfl, h.referenced⟩
  have hgrows := hread.trans (.pushTerm _ (.call op.name args terms) hn)
  rw [Nat.zero_add] at hgrows
  refine ⟨_, ?_, hgrows⟩
  simp [Stack.apply, ha.takes, ha.gives, hargs, hpop]

end Stack

theorem words_append {ctx : Context} {source offset : Nat} {s s' : Stack}
    {is js : List Instruction} (h : words ctx source offset s is = .ok s') :
    words ctx source offset s (is ++ js) =
      words ctx source (offset + Instruction.size * is.length) s' js := by
  induction is generalizing s offset with
  | nil =>
    simp only [words, Except.ok.injEq] at h
    subst h
    rfl
  | cons i is ih =>
    obtain ⟨s₁, h₁, h⟩ := words_cons_eq_ok h
    rw [List.cons_append, words, h₁]
    dsimp only
    rw [ih h, List.length_cons, Nat.mul_succ, Nat.add_assoc, Nat.add_comm Instruction.size]

end Decompile

theorem Scope.lt_of_slot? {before : List Label} {name : String} {slot : Nat}
    (h : (after before).slot? name = some slot) : slot < before.length := by
  rw [slot?_after] at h
  exact (List.findIdx?_eq_some_iff_findIdx_eq.mp h).1

/-- Words of the table's opcodes can be replayed: arguments are recovered from operands, and memory
reads are of one value. -/
structure Table.Replayable (table : Table) (memory : UInt16) : Prop where
  valid : table.Valid
  invertible : ∀ number op, table.get? number = some op → op.IsInvertible
  reads : table.Reads memory

namespace Emits

open Decompile

variable {table : Table} {memory : UInt16} {code : Bytecode} {before : List Label} {nested : Bool}
  {s s₁ : Stack}

theorem call_replay (ht : table.Replayable memory) {pool : Pool} {number : UInt16} {op : Opcode}
    {args : List Nat} {params outputs : Nat} {operand : UInt16} (hget : table.get? number = some op)
    (hacc : op.Accepts args params operand outputs) (hone : nested = true → outputs = 1)
    (hcan : number = memory → (⟨pool, []⟩ : Code).canRead (Scope.after before)
      (Region.ofOperand operand).1 (Region.ofOperand operand).2 = true)
    (hc : code.Knows pool) (hs : s.ReadsBelow before.length)
    (hparams : Stack.Grows before.length true s s₁ params) (source offset : Nat) :
    ∃ s₂, word ⟨table, some memory, code⟩ source offset s₁ ⟨number, operand⟩ = .ok s₂ ∧
      Stack.Grows before.length nested s s₂ outputs := by
  by_cases hn : number = memory
  · subst hn
    obtain ⟨read, hm, hread⟩ := ht.reads
    rw [hget, Option.some.injEq] at hm
    subst hm
    obtain ⟨rfl, rfl⟩ := hacc.of_isRead hread
    have hword : ∃ s₂, s₁.readMemory code operand = .ok s₂ ∧
        Stack.Grows before.length nested s₁ s₂ 1 := by
      have hcan := hcan rfl
      rcases hregion : Region.ofOperand operand with ⟨region, index⟩
      rw [hregion] at hcan
      cases region with
      | constant =>
        obtain ⟨v, hv⟩ := Code.constant_of_canRead hcan
        exact Stack.readMemory_constant hregion (hc index v hv)
      | stack =>
        exact Stack.readMemory_stack code hregion (Code.slot_of_canRead hcan)
          (hparams.readsBelow hs)
    obtain ⟨s₂, hr, hgrows⟩ := hword
    exact ⟨s₂, by simp [word, hr], hparams.weaken.trans hgrows⟩
  · obtain ⟨s₂, ha, hgrows⟩ :=
      hparams.apply hs (ht.valid.sound _ _ hget) (ht.invertible _ _ hget) hacc hone
    have hne : memory ≠ number := fun he => hn he.symm
    exact ⟨s₂, by simp [word, hne, hget, ha], hgrows⟩

/-- The words of nodes can be replayed. Reads are of the slots of earlier statements, so that the
slots of parameters are never read. -/
theorem replay (ht : table.Replayable memory) {pool pool' : Pool} {ns : List Node}
    {ws : List Instruction}
    (h : Emits table memory (Scope.after before) nested pool ns ws pool') (hg : pool.Good)
    (hc : code.Knows pool') (hs : s.ReadsBelow before.length) (source offset : Nat) :
    ∃ s', words ⟨table, some memory, code⟩ source offset s ws = .ok s' ∧
      Stack.Grows before.length nested s s' (Node.outputsOf ns) := by
  induction h generalizing s offset with
  | nil => exact ⟨s, rfl, .refl _ _ s⟩
  | @value nested pool pool₁ pool₂ raw n i p tags rest w ws hr ha hw he ih =>
    obtain ⟨hg₁, -⟩ := hg.add (Literal.read_le hr) ha
    obtain ⟨hop, hregion⟩ := Instruction.memory?_eq_some hw
    have hi : pool₂.values.toList[i]? = some n :=
      Pool.getElem?_of_prefix (he.pool_good hg₁).2 (hg.valid.add ha).2.2
    obtain ⟨s₁, hread, hgrows⟩ := Stack.readMemory_constant hregion (hc i n hi)
    obtain ⟨s', hwords, hgrows'⟩ := ih hg₁ hc (hgrows.readsBelow hs) (offset + Instruction.size)
    refine ⟨s', by simp [words, word, hop, hread, hwords], ?_⟩
    simpa [Node.outputCount?] using hgrows.trans hgrows'
  | @reference nested pool pool₁ name slot p tags rest w ws hslot hw he ih =>
    obtain ⟨hop, hregion⟩ := Instruction.memory?_eq_some hw
    obtain ⟨s₁, hread, hgrows⟩ :=
      Stack.readMemory_stack code hregion (Scope.lt_of_slot? hslot) hs
    obtain ⟨s', hwords, hgrows'⟩ := ih hg hc (hgrows.readsBelow hs) (offset + Instruction.size)
    refine ⟨s', by simp [words, word, hop, hread, hwords], ?_⟩
    simpa [Node.outputCount?] using hgrows.trans hgrows'
  | @call nested pool pool₁ pool₂ head params tags rest number op r ws₁ ws₂ hget ho hr hacc hone
      hcan hparams hrest ihp ih =>
    obtain ⟨hg₁, -⟩ := hparams.pool_good hg
    obtain ⟨-, hp₂⟩ := hrest.pool_good hg₁
    have hc₁ := hc.of_prefix hp₂
    obtain ⟨s₁, hwords₁, hgrows₁⟩ := ihp hg hc₁ hs offset
    rw [hparams.outputsOf_nested] at hgrows₁
    -- the call takes the stack back to `s`, where only earlier statements were read
    obtain ⟨s₂, hword, hgrows₂⟩ := call_replay ht hget hacc hone hcan hc₁ hs hgrows₁ source
      (offset + Instruction.size * ws₁.length)
    obtain ⟨s', hwords, hgrows'⟩ := ih hg₁ hc (hgrows₂.readsBelow hs)
      (offset + Instruction.size * ws₁.length + Instruction.size)
    refine ⟨s', ?_, ?_⟩
    · rw [words_append hwords₁, words, hword]
      exact hwords
    · simpa [Node.outputCount?, hr.outputs] using hgrows₂.trans hgrows'

end Emits

namespace EmitsAll

open Decompile

variable {table : Table} {memory : UInt16} {code : Bytecode} {before : List Label}
  {pool pool' : Pool} {ss : List Statement} {ws : List Instruction}

theorem replay (ht : table.Replayable memory) (h : EmitsAll table memory before pool ss ws pool')
    (hg : pool.Good) (hc : code.Knows pool')
    {s : Stack} (hslots : s.slots = before.length) (hs : s.ReadsBelow before.length)
    (source offset : Nat) :
    ∃ s', words ⟨table, some memory, code⟩ source offset s ws = .ok s' := by
  induction h generalizing s offset with
  | nil => exact ⟨s, rfl⟩
  | @cons before pool pool₁ pool₂ st rest ws₁ ws₂ hsound he hrest ih =>
    obtain ⟨hg₁, -⟩ := he.pool_good hg
    obtain ⟨-, hp₂⟩ := hrest.pool_good hg₁
    obtain ⟨s₁, hwords₁, hgrows⟩ := he.replay ht hg (hc.of_prefix hp₂) hs source offset
    have hslots₁ : s₁.slots = (before ++ st.labels).length := by
      rw [hgrows.slots, hslots, hsound.balanced, List.length_append]
    have hs₁ : s₁.ReadsBelow (before ++ st.labels).length := by
      refine ⟨hslots₁.ge, ?_⟩
      intro k hk
      have hlt := (hgrows.readsBelow hs).lt_bound k hk
      rw [List.length_append]
      omega
    obtain ⟨s', hwords⟩ := ih hg₁ hc hslots₁ hs₁ (offset + Instruction.size * ws₁.length)
    exact ⟨s', by rw [words_append hwords₁, hwords]⟩

end EmitsAll

theorem EmitsSources.replay {table : Table} {memory : UInt16} {code : Bytecode}
    (ht : table.Replayable memory) {pool pool' : Pool} {ss : List Source}
    {wss : List (List Instruction)} (h : EmitsSources table memory pool ss wss pool')
    (hg : pool.Good) (hc : code.Knows pool')
    (index : Nat) (done : Script) :
    ∃ script, Decompile.sources ⟨table, some memory, code⟩ index done
      (wss.map Instruction.encode) = .ok script := by
  induction h generalizing index done with
  | nil => exact ⟨done.reverse, rfl⟩
  | @cons pool pool₁ pool₂ s rest ws wss he hrest ih =>
    obtain ⟨hg₁, -⟩ := he.pool_good hg
    obtain ⟨-, hp₂⟩ := hrest.pool_good hg₁
    obtain ⟨stack, hwords⟩ := he.replay ht hg (hc.of_prefix hp₂) (s := {}) rfl
      ⟨Nat.le_refl 0, by simp⟩ index 0
    obtain ⟨script, hscript⟩ := ih hg₁ hc (index + 1) (stack.clauses :: done)
    have hsource : Decompile.source ⟨table, some memory, code⟩ index (Instruction.encode ws) =
        .ok stack.clauses := by
      simp [Decompile.source, Instruction.length_encode, Instruction.decode_encode, hwords]
    exact ⟨script, by simp [Decompile.sources, hsource, hscript]⟩

end Wordcode
