import Wordcode.Proofs.Actions

namespace Wordcode

namespace Decompile

/-- A term on the stack with its outputs, and the words it was made from. -/
structure Item where
  term : Term
  outputs : Nat
  actions : List Action

def Item.entries (item : Item) : List Entry :=
  if item.outputs = 0 then [.effect item.term]
  else .value item.term :: List.replicate (item.outputs - 1) .placeholder

def slotsOf (items : List Item) : Nat :=
  (items.map (·.outputs)).sum

@[simp]
theorem slotsOf_append (items more : List Item) :
    slotsOf (items ++ more) = slotsOf items + slotsOf more := by
  simp [slotsOf]

@[simp]
theorem slotsOf_singleton (item : Item) : slotsOf [item] = item.outputs := by
  simp [slotsOf]

/-- Reads of slots below the given one that were seen. -/
def Stack.Readable (s : Stack) (bound k : Nat) : Prop :=
  k < bound ∧ s.referenced.contains k = true

/-- The stack holds the items, the lowest one first. A term reads slots below its own only, and
they are known to be read. -/
structure Stack.Holds (table : Table) (memory : UInt16) (s : Stack) (items : List Item) : Prop where
  entries : s.entries.reverse = items.flatMap Item.entries
  slots : s.slots = slotsOf items
  referenced : ∀ k, s.referenced.contains k = true → k < s.slots ∧ k ≤ Instruction.maxIndex
  stands : ∀ below item above, items = below ++ item :: above →
    Term.Stands table memory (s.Readable (slotsOf below)) false [item.term] item.outputs
      item.actions

theorem split_concat {α : Type} {l below above : List α} {a b : α}
    (h : l ++ [a] = below ++ b :: above) :
    (below = l ∧ b = a) ∨ ∃ rest, l = below ++ b :: rest := by
  rcases List.eq_nil_or_concat above with rfl | ⟨rest, last, rfl⟩
  · obtain ⟨rfl, hlast⟩ := List.append_inj' h rfl
    exact .inl ⟨rfl, (List.singleton_inj.mp hlast).symm⟩
  · rw [List.concat_eq_append, ← List.cons_append, ← List.append_assoc] at h
    exact .inr ⟨rest, (List.append_inj' h rfl).1⟩

namespace Stack

variable {table : Table} {memory : UInt16} {s : Stack} {items : List Item}

theorem holds_empty : ({} : Stack).Holds table memory [] := by
  refine ⟨rfl, rfl, by simp, ?_⟩
  intro below item above h
  simp at h

theorem Holds.push (h : s.Holds table memory items) {item : Item}
    (hitem : Term.Stands table memory (s.Readable s.slots) false [item.term] item.outputs
      item.actions) :
    Holds table memory ⟨item.entries.reverse ++ s.entries, s.slots + item.outputs, s.referenced⟩
      (items ++ [item]) := by
  refine ⟨?_, ?_, ?_, ?_⟩
  · simp [h.entries]
  · simp [h.slots]
  · intro k hk
    have hb := h.referenced k hk
    exact ⟨Nat.lt_add_right _ hb.1, hb.2⟩
  · intro below other above he
    obtain ⟨rfl, rfl⟩ | ⟨rest, rfl⟩ := split_concat he
    · rw [h.slots] at hitem
      exact hitem
    · exact h.stands below other rest rfl

theorem entries_term (t : Term) (outputs : Nat) (as : List Action) (s : Stack) :
    s.pushTerm t outputs =
      ⟨(Item.entries ⟨t, outputs, as⟩).reverse ++ s.entries, s.slots + outputs, s.referenced⟩ := by
  unfold pushTerm Item.entries
  by_cases h : outputs = 0
  · simp [h]
  · simp [h]

theorem Holds.pushTerm (h : s.Holds table memory items) {t : Term} {outputs : Nat}
    {as : List Action}
    (ht : Term.Stands table memory (s.Readable s.slots) false [t] outputs as) :
    (s.pushTerm t outputs).Holds table memory (items ++ [⟨t, outputs, as⟩]) := by
  rw [entries_term t outputs as]
  exact h.push ht

theorem Holds.pushValue (h : s.Holds table memory items) {t : Term} {as : List Action}
    (ht : Term.Stands table memory (s.Readable s.slots) false [t] 1 as) :
    (s.pushValue t).Holds table memory (items ++ [⟨t, 1, as⟩]) := by
  have he : s.pushValue t = s.pushTerm t 1 := rfl
  rw [he]
  exact h.pushTerm ht

theorem Holds.refer (h : s.Holds table memory items) {k : Nat} (hk : k < s.slots)
    (hm : k ≤ Instruction.maxIndex) :
    Holds table memory { s with referenced := s.referenced.insert k } items := by
  refine ⟨h.entries, h.slots, ?_, ?_⟩
  · intro j hj
    simp only [Std.TreeSet.contains_insert, Bool.or_eq_true, Nat.compare_eq_eq, beq_iff_eq] at hj
    rcases hj with rfl | hj
    · exact ⟨hk, hm⟩
    · exact h.referenced j hj
  · intro below item above he
    refine (h.stands below item above he).mono ?_
    rintro j ⟨hj, hr⟩
    exact ⟨hj, by simp [Std.TreeSet.contains_insert, hr]⟩

theorem Holds.readMemory (h : s.Holds table memory items) {code : Bytecode} {operand : UInt16}
    {s' : Stack} (hs : s.readMemory code operand = .ok s') :
    ∃ item a, s'.Holds table memory (items ++ [item]) ∧ item.actions = [a] ∧
      Instruction.action? memory code.constant? ⟨memory, operand⟩ = some a := by
  have hle := Region.ofOperand_le operand
  unfold Stack.readMemory at hs
  split at hs
  · rename_i index hr
    split at hs
    · rename_i v hv
      simp only [Except.ok.injEq] at hs
      subst hs
      have hc := Bytecode.constant?_eq_some.mpr hv
      refine ⟨⟨_, 1, [.constant v]⟩, .constant v, h.pushValue ?_, rfl,
        Instruction.action?_constant rfl hr hc⟩
      exact .literal (Bytecode.constant?_le hc) .nil
    · simp at hs
    · simp at hs
  · rename_i index hr
    rw [hr] at hle
    split at hs
    · rename_i hk
      simp only [Except.ok.injEq] at hs
      subst hs
      refine ⟨⟨_, 1, [.slot index]⟩, .slot index, (h.refer hk hle).pushValue ?_, rfl,
        Instruction.action?_stack rfl hr⟩
      exact .reference ⟨hk, by simp⟩ .nil
    · simp at hs

theorem top_items {items : List Item} {count : Nat}
    (hlen : ((items.flatMap Item.entries).reverse.take count).length = count)
    (hall : ((items.flatMap Item.entries).reverse.take count).all (·.isValue) = true) :
    ∃ below popped, items = below ++ popped ∧ popped.length = count ∧
      ∀ item ∈ popped, item.outputs = 1 := by
  induction count generalizing items with
  | zero => exact ⟨items, [], by simp, rfl, by simp⟩
  | succ count ih =>
    rcases List.eq_nil_or_concat items with rfl | ⟨init, last, rfl⟩
    · simp at hlen
    · rw [List.concat_eq_append] at hlen hall ⊢
      have hlast : last.outputs = 1 := by
        rw [List.flatMap_append, List.reverse_append, List.flatMap_singleton] at hall
        by_cases h0 : last.outputs = 0
        · simp [Item.entries, h0, Entry.isValue] at hall
        · by_cases h1 : last.outputs = 1
          · exact h1
          · obtain ⟨n, hn⟩ : ∃ n, last.outputs - 1 = n + 1 := ⟨last.outputs - 2, by omega⟩
            rw [Item.entries, if_neg h0, hn, List.reverse_cons, List.reverse_replicate,
              List.replicate_succ] at hall
            simp [Entry.isValue] at hall
      have hone : last.entries = [.value last.term] := by simp [Item.entries, hlast]
      rw [List.flatMap_append, List.reverse_append, List.flatMap_singleton, hone,
        List.reverse_singleton, List.singleton_append, List.take_succ_cons] at hlen hall
      rw [List.length_cons, Nat.add_right_cancel_iff] at hlen
      rw [List.all_cons, Bool.and_eq_true] at hall
      obtain ⟨below, popped, rfl, hp, hout⟩ := ih hlen hall.2
      refine ⟨below, popped ++ [last], by simp, by simp [hp], ?_⟩
      intro item hm
      rcases List.mem_append.mp hm with hm | hm
      · exact hout item hm
      · rw [List.mem_singleton.mp hm]
        exact hlast

theorem entries_of_outputs {items : List Item} (h : ∀ item ∈ items, item.outputs = 1) :
    items.flatMap Item.entries = items.map fun item => .value item.term := by
  induction items with
  | nil => rfl
  | cons item items ih =>
    rw [List.forall_mem_cons] at h
    simp [Item.entries, h.1, ih h.2]

theorem slotsOf_of_outputs {items : List Item} (h : ∀ item ∈ items, item.outputs = 1) :
    slotsOf items = items.length := by
  induction items with
  | nil => rfl
  | cons item items ih =>
    rw [List.forall_mem_cons] at h
    have hi := ih h.2
    simp only [slotsOf] at hi
    simp [slotsOf, h.1, hi, Nat.add_comm]

theorem stands_popped {readable : Nat → Prop} {items : List Item}
    (h : ∀ item ∈ items, item.outputs = 1 ∧
      Term.Stands table memory readable false [item.term] item.outputs item.actions) :
    Term.Stands table memory readable true (items.map (·.term)) items.length
      (items.flatMap (·.actions)) := by
  induction items with
  | nil => exact .nil
  | cons item items ih =>
    rw [List.forall_mem_cons] at h
    have hs := h.1.2.cons (fun _ => h.1.1) (ih h.2)
    rw [h.1.1, Nat.add_comm] at hs
    exact hs

theorem pop_eq_ok {name : String} {count : Nat} {params : List Term} {s' : Stack}
    (h : s.pop name count = .ok (params, s')) :
    (s.entries.take count).length = count ∧ (s.entries.take count).all (·.isValue) = true ∧
      (∀ k ∈ List.range' (s.slots - count) count, s.referenced.contains k = false) ∧
      params = (s.entries.take count).reverse.filterMap (·.term?) ∧
      s' = { s with entries := s.entries.drop count, slots := s.slots - count } := by
  unfold pop at h
  dsimp only at h
  split at h
  · rename_i htop
    rw [Bool.and_eq_true, decide_eq_true_eq] at htop
    split at h
    · simp at h
    · rename_i hfree
      simp only [Except.ok.injEq, Prod.mk.injEq] at h
      refine ⟨htop.1, htop.2, ?_, h.1.symm, h.2.symm⟩
      intro k hk
      rw [List.find?_eq_none] at hfree
      exact Bool.eq_false_iff.mpr (hfree k hk)
  · simp at h

theorem Holds.pop (h : s.Holds table memory items) {name : String} {count : Nat}
    {params : List Term} {s' : Stack} (hs : s.pop name count = .ok (params, s')) :
    ∃ below popped, items = below ++ popped ∧ params = popped.map (·.term) ∧
      params.length = count ∧ s'.Holds table memory below ∧ s'.referenced = s.referenced ∧
      Term.Stands table memory (s'.Readable s'.slots) true params count
        (popped.flatMap (·.actions)) := by
  obtain ⟨hlen, hvalues, hfree, rfl, rfl⟩ := pop_eq_ok hs
  have he : s.entries = (items.flatMap Item.entries).reverse := by
    rw [← h.entries, List.reverse_reverse]
  rw [he] at hlen hvalues
  obtain ⟨below, popped, rfl, hcount, hone⟩ := top_items hlen hvalues
  subst hcount
  have hentries : s.entries = (popped.map fun item => Entry.value item.term).reverse ++
      (below.flatMap Item.entries).reverse := by
    rw [he, List.flatMap_append, List.reverse_append, entries_of_outputs hone]
  have htop : (popped.map fun item => Entry.value item.term).reverse.length = popped.length := by
    simp
  have hterms : (s.entries.take popped.length).reverse.filterMap (·.term?) =
      popped.map (·.term) := by
    rw [hentries, ← htop, List.take_left, List.reverse_reverse, List.filterMap_map,
      ← List.filterMap_eq_map]
    rfl
  have hdrop : s.entries.drop popped.length = (below.flatMap Item.entries).reverse := by
    rw [hentries, ← htop, List.drop_left]
  have hslots : s.slots = slotsOf below + popped.length := by
    rw [h.slots, slotsOf_append, slotsOf_of_outputs hone]
  -- a slot that was read is not among those of the popped items
  have hbelow : ∀ k, s.referenced.contains k = true → k < slotsOf below := by
    intro k hr
    have hlt := (h.referenced k hr).1
    by_contra hge
    rw [hfree k (by rw [List.mem_range'_1]; omega)] at hr
    simp at hr
  rw [hterms, hdrop, hslots, Nat.add_sub_cancel]
  refine ⟨below, popped, rfl, rfl, by simp, ?_, rfl, ?_⟩
  · refine ⟨by simp, rfl, ?_, ?_⟩
    · exact fun k hk => ⟨hbelow k hk, (h.referenced k hk).2⟩
    · intro lower item above hitems
      exact h.stands lower item (above ++ popped) (by rw [hitems]; simp)
  · refine stands_popped ?_
    intro item hm
    obtain ⟨lower, above, hsplit⟩ := List.append_of_mem hm
    refine ⟨hone item hm, (h.stands (below ++ lower) item above (by simp [hsplit])).mono ?_⟩
    exact fun k hk => ⟨hbelow k hk.2, hk.2⟩

theorem Holds.apply (h : s.Holds table memory items) {number operand : UInt16} {op : Opcode}
    (hg : table.get? number = some op) (hn : number ≠ memory) {s' : Stack}
    (hs : s.apply op operand = .ok s') :
    ∃ below popped item, items = below ++ popped ∧ s'.Holds table memory (below ++ [item]) ∧
      item.actions = popped.flatMap (·.actions) ++ [.run number operand] := by
  unfold Stack.apply at hs
  split at hs
  · rename_i inputs outputs hin hout
    split at hs
    · simp at hs
    · rename_i arguments hargs
      split at hs
      · simp at hs
      · rename_i params s₁ hpop
        simp only [Except.ok.injEq] at hs
        subst hs
        obtain ⟨below, popped, hitems, -, hlen, hbelow, -, hparams⟩ := h.pop hpop
        obtain ⟨harity, hbound, hpack⟩ := Opcode.unpackOperand_eq_some hargs
        have haccepts : op.Accepts arguments params.length operand outputs := by
          rw [hlen]
          exact ⟨harity, hbound, hpack, hin, hout⟩
        refine ⟨below, popped, _, hitems, hbelow.pushTerm ?_, rfl⟩
        exact .call hg hn haccepts (by simp) hparams .nil
  · simp at hs

end Stack

variable {table : Table} {memory : UInt16} {code : Bytecode} {s s' : Stack} {items : List Item}

/-- A word adds its own action to those of the items. -/
theorem word_holds {source offset : Nat} {i : Instruction}
    (h : s.Holds table memory items)
    (hs : word ⟨table, some memory, code⟩ source offset s i = .ok s') :
    ∃ items' a, s'.Holds table memory items' ∧
      items'.flatMap (·.actions) = items.flatMap (·.actions) ++ [a] ∧
      i.action? memory code.constant? = some a := by
  unfold word at hs
  split at hs
  · rename_i hm
    simp only [Option.some.injEq] at hm
    subst hm
    obtain ⟨item, a, hitem, hactions, ha⟩ := h.readMemory hs
    exact ⟨items ++ [item], a, hitem, by simp [hactions], ha⟩
  · rename_i hm
    have hne : i.opcode ≠ memory := fun he => hm (by simp [he])
    split at hs
    · simp at hs
    · rename_i op hg
      obtain ⟨below, popped, item, rfl, hitem, hactions⟩ := h.apply hg hne hs
      exact ⟨below ++ [item], .run i.opcode i.operand, hitem, by simp [hactions],
        Instruction.action?_run hne⟩

theorem words_cons_eq_ok {ctx : Context} {source offset : Nat} {i : Instruction}
    {is : List Instruction} (h : words ctx source offset s (i :: is) = .ok s') :
    ∃ s₁, word ctx source offset s i = .ok s₁ ∧
      words ctx source (offset + Instruction.size) s₁ is = .ok s' := by
  rw [words] at h
  split at h
  · cases h
  · rename_i s₁ h₁
    exact ⟨s₁, h₁, h⟩

theorem words_holds {source offset : Nat} {is : List Instruction}
    (h : s.Holds table memory items)
    (hs : words ⟨table, some memory, code⟩ source offset s is = .ok s') :
    ∃ items' as, s'.Holds table memory items' ∧
      items'.flatMap (·.actions) = items.flatMap (·.actions) ++ as ∧
      Performs memory code.constant? is as := by
  induction is generalizing s items offset with
  | nil =>
    simp only [words, Except.ok.injEq] at hs
    subst hs
    exact ⟨items, [], h, by simp, .nil⟩
  | cons i is ih =>
    obtain ⟨s₁, h₁, hs⟩ := words_cons_eq_ok hs
    obtain ⟨items₁, a, hholds, hactions, ha⟩ := word_holds h h₁
    obtain ⟨items', as, hholds', hactions', has⟩ := ih hholds hs
    refine ⟨items', a :: as, hholds', ?_, .cons ha has⟩
    rw [hactions', hactions]
    simp

end Decompile

end Wordcode
