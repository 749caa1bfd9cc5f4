import Wordcode.Proofs.Replay

namespace Wordcode

/-- The slot is read somewhere in the term. -/
inductive Term.Reads (k : Nat) : Term → Prop
  | reference : Reads k (.reference (Decompile.slotName k))
  | parameter {name : String} {arguments : List Nat} {params : List Term} {t : Term} :
      t ∈ params → Reads k t → Reads k (.call name arguments params)

theorem Term.reads_reference_iff {k : Nat} {name : String} :
    (Term.reference name).Reads k ↔ name = Decompile.slotName k := by
  constructor
  · intro h
    generalize ht : Term.reference name = t at h
    cases h with
    | reference => exact Term.reference.inj ht
    | parameter _ _ => cases ht
  · rintro rfl
    exact .reference

namespace Decompile

def Entry.takesSlot : Entry → Bool
  | .value _ => true
  | .placeholder => true
  | .effect _ => false

def slotEntries (entries : List Entry) : List (Entry × Nat) :=
  entries.zipIdx.filter (·.1.takesSlot)

def Stack.slot? (s : Stack) (k : Nat) : Option (Entry × Nat) :=
  (slotEntries s.entries.reverse)[k]?

theorem length_slotEntries (entries : List Entry) :
    (slotEntries entries).length = entries.countP (·.takesSlot) := by
  have hfst : entries.zipIdx.map Prod.fst = entries := List.zipIdx_map_fst 0 entries
  rw [slotEntries, ← List.countP_eq_length_filter]
  conv_rhs => rw [← hfst, List.countP_map]
  rfl

theorem exists_slot {entries : List Entry} {k : Nat} (h : k < entries.countP (·.takesSlot)) :
    ∃ e i, i < entries.length ∧ ∀ above, (slotEntries (entries ++ above))[k]? = some (e, i) := by
  rw [← length_slotEntries] at h
  refine ⟨(slotEntries entries)[k].1, (slotEntries entries)[k].2, ?_, fun above => ?_⟩
  · have hm := List.mem_of_mem_filter (List.getElem_mem h)
    have hlt := List.snd_lt_of_mem_zipIdx hm
    simpa using hlt
  · have happend : slotEntries (entries ++ above) =
        slotEntries entries ++ (above.zipIdx entries.length).filter (·.1.takesSlot) := by
      rw [slotEntries, List.zipIdx_append, List.filter_append, Nat.zero_add]
      rfl
    rw [happend, List.getElem?_append_left h, List.getElem?_eq_getElem h]

theorem Item.length_entries (item : Item) : item.entries.length = max item.outputs 1 := by
  rw [entries]
  by_cases h : item.outputs = 0
  · simp [h]
  · rw [if_neg h, List.length_cons, List.length_replicate]
    omega

/-- The number of outputs of a word's node. Memory reads have one. -/
def Context.outputs? (ctx : Context) (i : Instruction) : Option Nat :=
  if ctx.memory = some i.opcode then some 1
  else (ctx.table.get? i.opcode).bind (·.outputCount i.operand)

/-- A node on the stack: its term, the number of its outputs, and the words it was made from. Its
own word is the last one. -/
structure Block where
  term : Term
  outputs : Nat
  words : List Instruction

namespace Block

def item (b : Block) : Item :=
  ⟨b.term, b.outputs, []⟩

def entries (b : Block) : List Entry :=
  b.item.entries

def slots (blocks : List Block) : Nat :=
  slotsOf (blocks.map item)

@[simp]
theorem slots_append (blocks more : List Block) :
    slots (blocks ++ more) = slots blocks + slots more := by
  simp [slots]

@[simp]
theorem slots_singleton (b : Block) : slots [b] = b.outputs := by
  simp [slots, item]

theorem flatMap_entries (blocks : List Block) :
    blocks.flatMap entries = (blocks.map item).flatMap Item.entries := by
  rw [List.flatMap_map]
  rfl

theorem countP_entries (b : Block) : b.entries.countP (·.takesSlot) = b.outputs := by
  rw [entries, item, Item.entries]
  by_cases h : b.outputs = 0
  · simp [h, Entry.takesSlot]
  · simp only [h, if_false, List.countP_cons, List.countP_replicate, Entry.takesSlot, if_true]
    omega

theorem countP_flatMap (blocks : List Block) :
    (blocks.flatMap entries).countP (·.takesSlot) = slots blocks := by
  induction blocks with
  | nil => rfl
  | cons b blocks ih =>
    rw [List.flatMap_cons, List.countP_append, ih, countP_entries, ← List.singleton_append,
      slots_append, slots_singleton]

theorem top_blocks {blocks : List Block} {count : Nat}
    (hlen : ((blocks.flatMap entries).reverse.take count).length = count)
    (hall : ((blocks.flatMap entries).reverse.take count).all (·.isValue) = true) :
    ∃ below popped, blocks = below ++ popped ∧ popped.length = count ∧
      ∀ b ∈ popped, b.outputs = 1 := by
  rw [flatMap_entries] at hlen hall
  obtain ⟨low, high, hsplit, hcount, hone⟩ := Stack.top_items hlen hall
  obtain ⟨below, popped, rfl, rfl, rfl⟩ := List.map_eq_append_iff.mp hsplit
  rw [List.length_map] at hcount
  refine ⟨below, popped, rfl, hcount, fun b hb => ?_⟩
  exact hone b.item (List.mem_map_of_mem hb)

theorem entries_of_outputs {blocks : List Block} (h : ∀ b ∈ blocks, b.outputs = 1) :
    blocks.flatMap entries = blocks.map fun b => .value b.term := by
  have hitems : ∀ it ∈ blocks.map item, it.outputs = 1 := by
    intro it hm
    obtain ⟨b, hb, rfl⟩ := List.mem_map.mp hm
    exact h b hb
  rw [flatMap_entries, Stack.entries_of_outputs hitems, List.map_map]
  rfl

theorem slots_of_outputs {blocks : List Block} (h : ∀ b ∈ blocks, b.outputs = 1) :
    slots blocks = blocks.length := by
  rw [← countP_flatMap, entries_of_outputs h, List.countP_map]
  exact List.countP_eq_length.mpr fun _ _ => rfl

theorem getElem?_entries {b : Block} {i : Nat} {e : Entry} (h : b.entries[i]? = some e) :
    (i = 0 ∧ e.term? = some b.term) ∨
    ∃ j e', i = j + 1 ∧ e = .placeholder ∧ b.entries[j]? = some e' ∧ e'.takesSlot = true := by
  rw [entries, item, Item.entries] at h ⊢
  by_cases h0 : b.outputs = 0
  · rw [if_pos h0] at h
    cases i with
    | zero =>
      obtain rfl := Option.some.inj h
      exact .inl ⟨rfl, rfl⟩
    | succ j => cases h
  · rw [if_neg h0] at h ⊢
    cases i with
    | zero =>
      obtain rfl := Option.some.inj h
      exact .inl ⟨rfl, rfl⟩
    | succ j =>
      rw [List.getElem?_cons_succ, List.getElem?_replicate] at h
      obtain ⟨hj, he⟩ := Option.ite_none_right_eq_some.mp h
      obtain rfl := Option.some.inj he
      refine .inr ?_
      cases j with
      | zero => exact ⟨0, .value b.term, rfl, rfl, rfl, rfl⟩
      | succ j =>
        refine ⟨j + 1, .placeholder, rfl, rfl, ?_, rfl⟩
        rw [List.getElem?_cons_succ, List.getElem?_replicate, if_pos (by omega)]

theorem exists_block {blocks : List Block} {j : Nat} {e : Entry}
    (h : (blocks.flatMap entries)[j]? = some e) :
    ∃ below b above i, blocks = below ++ b :: above ∧ b.entries[i]? = some e ∧
      j = (below.flatMap entries).length + i := by
  induction blocks generalizing j with
  | nil => simp at h
  | cons b blocks ih =>
    rw [List.flatMap_cons] at h
    by_cases hj : j < b.entries.length
    · rw [List.getElem?_append_left hj] at h
      exact ⟨[], b, blocks, j, rfl, h, by simp⟩
    · rw [List.getElem?_append_right (by omega)] at h
      obtain ⟨below, c, above, i, rfl, hi, hlen⟩ := ih h
      refine ⟨b :: below, c, above, i, rfl, hi, ?_⟩
      rw [List.flatMap_cons, List.length_append]
      omega

theorem getElem?_flatMap (below : List Block) {b : Block} (above : List Block) {i : Nat} {e : Entry}
    (h : b.entries[i]? = some e) :
    ((below ++ b :: above).flatMap entries)[(below.flatMap entries).length + i]? = some e := by
  have hi := (List.getElem?_eq_some_iff.mp h).1
  rw [List.flatMap_append, List.getElem?_append_right (Nat.le_add_right _ _),
    Nat.add_sub_cancel_left, List.flatMap_cons, List.getElem?_append_left hi, h]

end Block

/-- What a word does: it takes values off the stack that were not read, and puts the outputs of one
term on it. The term reads a slot itself or has the values as parameters. -/
structure Turn (ctx : Context) (s : Stack) (i : Instruction) (s' : Stack) (inputs outputs : Nat)
    (t : Term) : Prop where
  length : (s.entries.take inputs).length = inputs
  values : (s.entries.take inputs).all (·.isValue) = true
  unread : ∀ k, s.slots - inputs ≤ k → k < s.slots → s'.referenced.contains k = false
  entries : s'.entries = (Block.entries ⟨t, outputs, []⟩).reverse ++ s.entries.drop inputs
  slots : s'.slots = s.slots - inputs + outputs
  referenced : ∀ k, s'.referenced.contains k = true ↔
    s.referenced.contains k = true ∨ t = .reference (slotName k)
  inReach : ∀ k, t = .reference (slotName k) → k < s.slots
  reads : ∀ k, t.Reads k → t = .reference (slotName k) ∨
    ∃ u, Entry.value u ∈ s.entries.take inputs ∧ u.Reads k
  outputs : ctx.outputs? i = some outputs

variable {ctx : Context} {s s' : Stack} {i : Instruction}

theorem turn_readMemory {operand : UInt16} (hs : s.readMemory ctx.code operand = .ok s')
    (ho : ctx.outputs? i = some 1) : ∃ t, Turn ctx s i s' 0 1 t := by
  unfold Stack.readMemory at hs
  split at hs
  · split at hs
    · rename_i v hv
      simp only [Except.ok.injEq] at hs
      subst hs
      refine ⟨Stack.literal v, rfl, rfl, fun k _ _ => by omega, rfl, rfl, ?_, nofun, nofun, ho⟩
      intro k
      exact (or_iff_left nofun).symm
    · simp at hs
    · simp at hs
  · rename_i index hr
    split at hs
    · rename_i hk
      simp only [Except.ok.injEq] at hs
      subst hs
      have hsame : ∀ k, Term.reference (slotName index) = .reference (slotName k) ↔ index = k := by
        intro k
        rw [Term.reference.injEq]
        exact ⟨slotName_injective, congrArg slotName⟩
      refine ⟨.reference (slotName index), rfl, rfl, fun k _ _ => by omega, rfl, rfl, ?_, ?_, ?_,
        ho⟩
      · intro k
        rw [hsame]
        simp [Stack.pushValue, Std.TreeSet.contains_insert, or_comm]
      · intro k he
        rwa [← (hsame k).mp he]
      · intro k hr
        exact .inl (congrArg Term.reference (Term.reads_reference_iff.mp hr))
    · simp at hs

theorem turn_apply {op : Opcode} {operand : UInt16} (hs : s.apply op operand = .ok s')
    (ho : ctx.outputs? i = op.outputCount operand) :
    ∃ inputs outputs t, Turn ctx s i s' inputs outputs t := by
  unfold Stack.apply at hs
  split at hs
  · rename_i inputs outputs hin hout
    split at hs
    · simp at hs
    · rename_i arguments hargs
      split at hs
      · simp at hs
      · rename_i params s₁ hpop
        simp only [Except.ok.injEq] at hs
        obtain ⟨hlen, hvalues, hfree, rfl, rfl⟩ := Stack.pop_eq_ok hpop
        rw [Stack.entries_term _ _ []] at hs
        subst hs
        refine ⟨inputs, outputs, _, hlen, hvalues, ?_, rfl, rfl, ?_, nofun, ?_, ho.trans hout⟩
        · intro k hge hlt
          exact hfree k (by rw [List.mem_range'_1]; omega)
        · intro k
          exact (or_iff_left nofun).symm
        · rintro k (_ | ⟨hm, hr⟩)
          rw [List.mem_filterMap] at hm
          obtain ⟨e, he, ht⟩ := hm
          rw [List.mem_reverse] at he
          have hv := List.all_eq_true.mp hvalues e he
          cases e with
          | value u =>
            obtain rfl : u = _ := Option.some.inj ht
            exact .inr ⟨u, he, hr⟩
          | placeholder => cases hv
          | effect u => cases hv
  · simp at hs

theorem word_turn {source offset : Nat} (hs : word ctx source offset s i = .ok s') :
    ∃ inputs outputs t, Turn ctx s i s' inputs outputs t := by
  unfold word at hs
  split at hs
  · rename_i hm
    have ho : ctx.outputs? i = some 1 := by
      rw [Context.outputs?, if_pos hm]
    obtain ⟨t, ht⟩ := turn_readMemory hs ho
    exact ⟨0, 1, t, ht⟩
  · rename_i hm
    split at hs
    · simp at hs
    · rename_i op hg
      have ho : ctx.outputs? i = op.outputCount i.operand := by
        rw [Context.outputs?, if_neg hm, hg]
        rfl
      exact turn_apply hs ho

/-- The stack is made of nodes, the lowest one first. Each word so far belongs to one of them, and
its last word tells the number of its outputs. Slots that were read are there, and a term reads
slots below its own only. -/
structure Stack.Built (ctx : Context) (is : List Instruction) (s : Stack) (blocks : List Block) :
    Prop where
  words : is = blocks.flatMap (·.words)
  outputs : ∀ b ∈ blocks, ∃ i, b.words.getLast? = some i ∧ ctx.outputs? i = some b.outputs
  entries : s.entries.reverse = blocks.flatMap Block.entries
  slots : s.slots = Block.slots blocks
  referenced : ∀ k, s.referenced.contains k = true → k < s.slots
  reads : ∀ below b above, blocks = below ++ b :: above → ∀ k, b.term.Reads k →
    s.referenced.contains k = true ∧ k < Block.slots below

namespace Stack.Built

variable {is : List Instruction} {blocks : List Block} {inputs outputs : Nat} {t : Term}

theorem empty (ctx : Context) : ({} : Stack).Built ctx [] [] := by
  refine ⟨rfl, nofun, rfl, rfl, by simp, ?_⟩
  intro below b above h
  simp at h

theorem top (h : s.Built ctx is blocks) {count : Nat} (hlen : (s.entries.take count).length = count)
    (hall : (s.entries.take count).all (·.isValue) = true) :
    ∃ below popped, blocks = below ++ popped ∧ popped.length = count ∧
      (∀ b ∈ popped, b.outputs = 1) ∧
      s.entries.take count = (popped.map fun b => Entry.value b.term).reverse ∧
      s.entries.drop count = (below.flatMap Block.entries).reverse ∧
      s.slots = Block.slots below + count := by
  have he : s.entries = (blocks.flatMap Block.entries).reverse := by
    rw [← h.entries, List.reverse_reverse]
  rw [he] at hlen hall
  obtain ⟨below, popped, rfl, rfl, hone⟩ := Block.top_blocks hlen hall
  have hsplit : s.entries = (popped.map fun b => Entry.value b.term).reverse ++
      (below.flatMap Block.entries).reverse := by
    rw [he, List.flatMap_append, List.reverse_append, Block.entries_of_outputs hone]
  have hlength : (popped.map fun b => Entry.value b.term).reverse.length = popped.length := by
    simp
  refine ⟨below, popped, rfl, rfl, hone, ?_, ?_, ?_⟩
  · rw [hsplit, ← hlength, List.take_left]
  · rw [hsplit, ← hlength, List.drop_left]
  · rw [h.slots, Block.slots_append, Block.slots_of_outputs hone]

theorem referenced_lt (h : s.Built ctx is blocks) (ht : Turn ctx s i s' inputs outputs t) {n : Nat}
    (hn : s.slots = n + inputs) {k : Nat} (hk : s'.referenced.contains k = true) : k < n := by
  have hlt : k < s.slots := ((ht.referenced k).mp hk).elim (h.referenced k) (ht.inReach k)
  by_contra hge
  rw [ht.unread k (by omega) hlt] at hk
  cases hk

theorem turn (h : s.Built ctx is blocks) (ht : Turn ctx s i s' inputs outputs t) :
    ∃ below popped, blocks = below ++ popped ∧
      s'.Built ctx (is ++ [i]) (below ++ [⟨t, outputs, popped.flatMap (·.words) ++ [i]⟩]) := by
  obtain ⟨below, popped, rfl, -, -, htake, hdrop, hslots⟩ := h.top ht.length ht.values
  have hbelow : ∀ {k}, s'.referenced.contains k = true → k < Block.slots below :=
    fun hk => h.referenced_lt ht hslots hk
  have hkept : ∀ {k}, s.referenced.contains k = true → s'.referenced.contains k = true :=
    fun hk => (ht.referenced _).mpr (.inl hk)
  refine ⟨below, popped, rfl, ?_, ?_, ?_, ?_, ?_, ?_⟩
  · simp [h.words]
  · intro b hb
    rw [List.mem_append, List.mem_singleton] at hb
    obtain hb | rfl := hb
    · exact h.outputs b (List.mem_append_left _ hb)
    · exact ⟨i, by simp, ht.outputs⟩
  · rw [ht.entries, hdrop, List.reverse_append, List.reverse_reverse, List.reverse_reverse,
      List.flatMap_append, List.flatMap_singleton]
    rfl
  · rw [ht.slots, hslots, Nat.add_sub_cancel, Block.slots_append, Block.slots_singleton]
  · intro k hk
    rw [ht.slots, hslots]
    have := hbelow hk
    omega
  · intro lower b above hsplit k hr
    obtain ⟨rfl, rfl⟩ | ⟨rest, rfl⟩ := split_concat hsplit
    · suffices hk : s'.referenced.contains k = true from ⟨hk, hbelow hk⟩
      obtain he | ⟨u, hu, hread⟩ := ht.reads k hr
      · exact (ht.referenced k).mpr (.inr he)
      · rw [htake, List.mem_reverse, List.mem_map] at hu
        obtain ⟨b, hb, he⟩ := hu
        obtain rfl := Entry.value.inj he
        obtain ⟨high, rest, rfl⟩ := List.append_of_mem hb
        exact hkept (h.reads (lower ++ high) b rest (by simp) k hread).1
    · obtain ⟨hk, hlt⟩ := h.reads lower b (rest ++ popped) (by simp) k hr
      exact ⟨hkept hk, hlt⟩

theorem slot?_turn (h : s.Built ctx is blocks) (ht : Turn ctx s i s' inputs outputs t) {k : Nat}
    (hk : s'.referenced.contains k = true) :
    ∃ slot, s.slot? k = some slot ∧ s'.slot? k = some slot := by
  obtain ⟨below, popped, rfl, -, -, -, hdrop, hslots⟩ := h.top ht.length ht.values
  have hlt := h.referenced_lt ht hslots hk
  rw [← Block.countP_flatMap] at hlt
  obtain ⟨e, j, -, hslot⟩ := exists_slot hlt
  refine ⟨(e, j), ?_, ?_⟩
  · rw [Stack.slot?, h.entries, List.flatMap_append]
    exact hslot _
  · rw [Stack.slot?, ht.entries, hdrop, List.reverse_append, List.reverse_reverse]
    exact hslot _

theorem run {source offset : Nat} {more : List Instruction} (h : s.Built ctx is blocks)
    (hs : Decompile.words ctx source offset s more = .ok s') :
    (∃ blocks', s'.Built ctx (is ++ more) blocks') ∧
      ∀ k, s.referenced.contains k = true → s'.slot? k = s.slot? k := by
  induction more generalizing s is blocks offset with
  | nil =>
    obtain rfl := Except.ok.inj hs
    exact ⟨⟨blocks, by rwa [List.append_nil]⟩, fun _ _ => rfl⟩
  | cons i more ih =>
    obtain ⟨s₁, h₁, hs⟩ := words_cons_eq_ok hs
    obtain ⟨inputs, outputs, t, ht⟩ := word_turn h₁
    obtain ⟨below, popped, -, hbuilt⟩ := h.turn ht
    obtain ⟨⟨blocks', hb⟩, hslots⟩ := ih hbuilt hs
    refine ⟨⟨blocks', by rwa [List.append_assoc] at hb⟩, fun k hk => ?_⟩
    have hk₁ : s₁.referenced.contains k = true := (ht.referenced k).mpr (.inl hk)
    obtain ⟨slot, hslot, hslot₁⟩ := h.slot?_turn ht hk₁
    rw [hslots k hk₁, hslot₁, hslot]

theorem countP_eq (h : s.Built ctx is blocks) : s.entries.countP (·.takesSlot) = s.slots := by
  rw [h.slots, ← Block.countP_flatMap, ← h.entries, List.countP_reverse]

theorem slot?_of_reads (h : s.Built ctx is blocks) {j k : Nat} {e : Entry} {t : Term}
    (he : s.entries.reverse[j]? = some e) (ht : e.term? = some t) (hr : t.Reads k) :
    ∃ e' i, s.slot? k = some (e', i) ∧ i < j := by
  rw [h.entries] at he
  obtain ⟨below, b, above, i, hsplit, hi, rfl⟩ := Block.exists_block he
  have hterm : i = 0 ∧ b.term = t := by
    obtain ⟨rfl, hb⟩ | ⟨-, -, -, rfl, -⟩ := Block.getElem?_entries hi
    · exact ⟨rfl, Option.some.inj (hb.symm.trans ht)⟩
    · cases ht
  obtain ⟨rfl, rfl⟩ := hterm
  obtain ⟨-, hlt⟩ := h.reads below b above hsplit k hr
  rw [← Block.countP_flatMap] at hlt
  obtain ⟨e', i, hle, hslot⟩ := exists_slot hlt
  refine ⟨e', i, ?_, hle⟩
  rw [Stack.slot?, h.entries, hsplit, List.flatMap_append]
  exact hslot _

theorem of_placeholder (h : s.Built ctx is blocks) {j : Nat}
    (hj : s.entries.reverse[j]? = some .placeholder) :
    ∃ i e, j = i + 1 ∧ s.entries.reverse[i]? = some e ∧ e.takesSlot = true := by
  rw [h.entries] at hj ⊢
  obtain ⟨below, b, above, i, rfl, hi, rfl⟩ := Block.exists_block hj
  obtain ⟨-, hb⟩ | ⟨i, e, rfl, -, he, hslot⟩ := Block.getElem?_entries hi
  · cases hb
  · exact ⟨_, e, rfl, Block.getElem?_flatMap below above he, hslot⟩

theorem pop (h : s.Built ctx is blocks) {name : String} {count : Nat} {params : List Term}
    (hs : s.pop name count = .ok (params, s')) :
    ∃ below popped, blocks = below ++ popped ∧ popped.length = count ∧
      (∀ b ∈ popped, b.outputs = 1) ∧ params = popped.map (·.term) ∧
      s'.entries.reverse = below.flatMap Block.entries := by
  obtain ⟨hlen, hvalues, -, rfl, rfl⟩ := pop_eq_ok hs
  obtain ⟨below, popped, rfl, hcount, hone, htake, hdrop, -⟩ := h.top hlen hvalues
  refine ⟨below, popped, rfl, hcount, hone, ?_, ?_⟩
  · rw [htake, List.reverse_reverse, List.filterMap_map, ← List.filterMap_eq_map]
    rfl
  · rw [hdrop, List.reverse_reverse]

theorem pop_cases (h : s.Built ctx is blocks) (name : String) (count : Nat) :
    ((s.entries.takeWhile (·.isValue)).length < count ∧
      s.pop name count =
        .error (.stackUnderflow name count (s.entries.takeWhile (·.isValue)).length)) ∨
    (count ≤ s.entries.length ∧ count ≤ s.slots) := by
  by_cases htop : (s.entries.take count).length = count ∧
      (s.entries.take count).all (·.isValue) = true
  · refine .inr ⟨?_, ?_⟩
    · rw [← htop.1]
      exact List.length_take_le' count s.entries
    · obtain ⟨below, -, -, -, -, -, -, hslots⟩ := h.top htop.1 htop.2
      omega
  · refine .inl ⟨?_, ?_⟩
    · by_contra hle
      obtain ⟨rest, hrest⟩ := List.takeWhile_prefix (l := s.entries) (·.isValue)
      have htake : s.entries.take count = (s.entries.takeWhile (·.isValue)).take count := by
        conv_lhs => rw [← hrest, List.take_append_of_le_length (by omega)]
      refine htop ⟨?_, ?_⟩
      · rw [htake, List.length_take]
        omega
      · rw [htake, List.all_eq_true]
        exact fun e he => List.mem_takeWhile_imp (List.mem_of_mem_take he)
    · rw [← decide_eq_true_eq (p := _ = count), ← Bool.and_eq_true] at htop
      exact if_neg htop

end Stack.Built

/-- What holds of a stack between two words. -/
structure Stack.Invariant (s : Stack) : Prop where
  slots : s.slots = s.entries.countP (·.takesSlot)
  referenced : ∀ k, s.referenced.contains k = true → k < s.slots
  /-- A term stands above the entries of the slots that it reads. -/
  reads : ∀ j k e t, s.entries.reverse[j]? = some e → e.term? = some t → t.Reads k →
    ∃ e' i, s.slot? k = some (e', i) ∧ i < j
  placeholder : ∀ j, s.entries.reverse[j]? = some .placeholder →
    ∃ i e, j = i + 1 ∧ s.entries.reverse[i]? = some e ∧ e.takesSlot = true

/-- Taking values off is refused where there are too few. Otherwise no difference is below zero, and
what is taken off are the topmost nodes. Each of them has one output, so no placeholder stands
behind it. -/
def Stack.PopsWhole (s : Stack) (blocks : List Block) (name : String) (count : Nat) : Prop :=
  ((s.entries.takeWhile (·.isValue)).length < count ∧
    s.pop name count =
      .error (.stackUnderflow name count (s.entries.takeWhile (·.isValue)).length)) ∨
  (count ≤ s.entries.length ∧ count ≤ s.slots ∧
    ∀ params s', s.pop name count = .ok (params, s') →
      (∃ below popped, blocks = below ++ popped ∧ popped.length = count ∧
        (∀ b ∈ popped, b.outputs = 1) ∧ params = popped.map (·.term) ∧
        s'.entries.reverse = below.flatMap Block.entries) ∧
      ∀ j e, s'.entries.length ≤ j → s.entries.reverse[j]? = some e →
        e.isValue = true ∧ s.entries.reverse[j + 1]? ≠ some .placeholder)

namespace Stack.Built

variable {is : List Instruction} {blocks : List Block}

theorem invariant (h : s.Built ctx is blocks) : s.Invariant :=
  ⟨h.countP_eq.symm, h.referenced, fun _ _ _ _ => h.slot?_of_reads, fun _ => h.of_placeholder⟩

theorem popsWhole (h : s.Built ctx is blocks) (name : String) (count : Nat) :
    s.PopsWhole blocks name count := by
  obtain hrefused | ⟨hlen, hslots⟩ := h.pop_cases name count
  · exact .inl hrefused
  · refine .inr ⟨hlen, hslots, fun params s' hs => ?_⟩
    obtain ⟨below, popped, rfl, hcount, hone, hparams, hrest⟩ := h.pop hs
    refine ⟨⟨below, popped, rfl, hcount, hone, hparams, hrest⟩, ?_⟩
    have hvalue : ∀ j e, s'.entries.length ≤ j → s.entries.reverse[j]? = some e →
        ∃ t, e = .value t := by
      intro j e hj he
      rw [h.entries, List.flatMap_append, ← hrest, Block.entries_of_outputs hone,
        List.getElem?_append_right (by rwa [List.length_reverse])] at he
      obtain ⟨b, -, rfl⟩ := List.mem_map.mp (List.mem_of_getElem? he)
      exact ⟨b.term, rfl⟩
    intro j e hj he
    obtain ⟨t, rfl⟩ := hvalue j e hj he
    refine ⟨rfl, fun hnext => ?_⟩
    obtain ⟨u, hu⟩ := hvalue (j + 1) _ (by omega) hnext
    cases hu

end Stack.Built

/-- Over any words, slots that were read are there and keep their entries and places, terms stand
above what they read, and outputs of one node stand together. Only nodes with one output are taken
off, and no difference is below zero on the way. -/
theorem words_invariant (ctx : Context) (source offset : Nat) (is : List Instruction) (s : Stack)
    (h : words ctx source offset {} is = .ok s) :
    s.Invariant ∧
    (∀ o₁ o₂ i more s₁ s₂, word ctx source o₁ s i = .ok s₁ →
      words ctx source o₂ s₁ more = .ok s₂ → ∀ k, s₁.referenced.contains k = true →
        ∃ slot, s.slot? k = some slot ∧ s₁.slot? k = some slot ∧ s₂.slot? k = some slot) ∧
    (∃ blocks : List Block, s.Built ctx is blocks ∧
      ∀ name count, s.PopsWhole blocks name count) ∧
    ∀ t outputs, (s.pushTerm t outputs).slots = s.slots + outputs ∧
      (s.pushTerm t outputs).entries.length = s.entries.length + max outputs 1 := by
  obtain ⟨⟨blocks, hbuilt⟩, -⟩ := (Stack.Built.empty ctx).run h
  rw [List.nil_append] at hbuilt
  refine ⟨hbuilt.invariant, ?_, ⟨blocks, hbuilt, hbuilt.popsWhole⟩, ?_⟩
  · intro o₁ o₂ i more s₁ s₂ h₁ h₂ k hk
    obtain ⟨inputs, outputs, t, ht⟩ := word_turn h₁
    obtain ⟨slot, hslot, hslot₁⟩ := hbuilt.slot?_turn ht hk
    obtain ⟨below, popped, -, hbuilt₁⟩ := hbuilt.turn ht
    exact ⟨slot, hslot, hslot₁, ((hbuilt₁.run h₂).2 k hk).trans hslot₁⟩
  · intro t outputs
    rw [Stack.entries_term t outputs []]
    refine ⟨rfl, ?_⟩
    rw [List.length_append, List.length_reverse, Item.length_entries, Nat.add_comm]

theorem words_invariant_outputs :
    let ctx : Context := ⟨Table.builtin, some 0, ⟨[], ["0x01", "7", "1", "max-uint256"]⟩⟩
    let is : List Instruction := [⟨0, 1⟩, ⟨0, 5⟩, ⟨24, 0x132⟩, ⟨0, 2⟩, ⟨0, 7⟩, ⟨16, 1⟩]
    ∃ s, words ctx 0 0 {} is = .ok s ∧ s.entries.length = 5 ∧ s.slots = 4 ∧
      s.referenced.contains 1 = true ∧ s.Invariant ∧
      ∃ blocks : List Block, s.Built ctx is blocks ∧
        ∀ name count, s.PopsWhole blocks name count := by
  intro ctx is
  have hrun : (words ctx 0 0 {} is).toOption.map
      (fun s => (s.entries.length, s.slots, s.referenced.contains 1)) = some (5, 4, true) := by
    decide +kernel
  obtain ⟨s, hs, hfacts⟩ := Option.map_eq_some_iff.mp hrun
  have hok : words ctx 0 0 {} is = .ok s := by
    cases hw : words ctx 0 0 {} is with
    | error err =>
      rw [hw] at hs
      cases hs
    | ok s' =>
      rw [hw] at hs
      rw [Option.some.inj hs]
  obtain ⟨hinvariant, -, hblocks, -⟩ := words_invariant ctx 0 0 is s hok
  simp only [Prod.mk.injEq] at hfacts
  exact ⟨s, hok, hfacts.1, hfacts.2.1, hfacts.2.2, hinvariant, hblocks⟩

end Decompile

end Wordcode
