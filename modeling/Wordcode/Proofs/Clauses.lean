import Wordcode.Proofs.Replay
import Wordcode.Proofs.Scripts

namespace Wordcode

def slotLabel (read : Nat → Bool) (k : Nat) : String :=
  if read k then Decompile.slotName k else "_"

def slotLabels (read : Nat → Bool) (k n : Nat) : List String :=
  (List.range' k n).map (slotLabel read)

theorem slotLabels_append (read : Nat → Bool) (k n m : Nat) :
    slotLabels read k n ++ slotLabels read (k + n) m = slotLabels read k (n + m) := by
  rw [slotLabels, slotLabels, ← List.map_append, List.range'_append_1]
  rfl

@[simp]
theorem length_slotLabels (read : Nat → Bool) (k n : Nat) : (slotLabels read k n).length = n := by
  simp [slotLabels]

theorem bindable_slotLabels (read : Nat → Bool) (k n : Nat) :
    bindable (slotLabels read k n) = ((List.range' k n).filter read).map Decompile.slotName := by
  have hb : ∀ j, (slotLabel read j != "_" && isName (slotLabel read j)) = read j := by
    intro j
    unfold slotLabel
    by_cases hr : read j = true
    · simp [hr, slotName_ne_underscore, isName_slotName]
    · simp [hr]
  rw [bindable, slotLabels, List.filter_map]
  have hf : ((fun name => name != "_" && isName name) ∘ slotLabel read) = read := funext hb
  rw [hf]
  refine List.map_congr_left ?_
  intro j hj
  rw [slotLabel, if_pos (List.mem_filter.mp hj).2]

theorem nodup_slotLabels (read : Nat → Bool) (k n : Nat) :
    (bindable (slotLabels read k n)).Nodup := by
  rw [bindable_slotLabels]
  refine List.Nodup.map ?_ ((List.nodup_range' 1).filter _)
  intro i j h
  exact slotName_injective h

theorem mem_bindable_slotLabels {read : Nat → Bool} {k n j : Nat} (hk : k ≤ j) (hn : j < k + n)
    (hr : read j = true) : Decompile.slotName j ∈ bindable (slotLabels read k n) := by
  rw [bindable_slotLabels]
  refine List.mem_map_of_mem (List.mem_filter.mpr ⟨?_, hr⟩)
  rw [List.mem_range'_1]
  exact ⟨hk, hn⟩

/-- The statements from a slot on up to another one stand for the actions. They read slots of
earlier statements only. -/
inductive Clause.StandAll (table : Table) (memory : UInt16) (read : Nat → Bool) :
    Nat → List Clause → Nat → List Action → Prop
  | nil {k : Nat} : StandAll table memory read k [] k []
  | cons {k l : Nat} {c : Clause} {rest : List Clause} {as bs : List Action} :
      c.names = slotLabels read k c.names.length →
      Term.Stands table memory (fun j => j < k ∧ read j = true) false c.terms c.names.length as →
      StandAll table memory read (k + c.names.length) rest l bs →
      StandAll table memory read k (c :: rest) l (as ++ bs)

theorem Clause.StandAll.concat {table : Table} {memory : UInt16} {read : Nat → Bool} {k l : Nat}
    {cs : List Clause} {as bs : List Action} {c : Clause}
    (h : StandAll table memory read k cs l as)
    (hn : c.names = slotLabels read l c.names.length)
    (ht : Term.Stands table memory (fun j => j < l ∧ read j = true) false c.terms c.names.length
      bs) : StandAll table memory read k (cs ++ [c]) (l + c.names.length) (as ++ bs) := by
  induction h with
  | nil =>
    have hs := StandAll.cons hn ht .nil
    simpa using hs
  | cons hn' ht' _ ih =>
    rw [List.append_assoc]
    exact .cons hn' ht' (ih hn ht)

theorem Clause.StandAll.allReadable {table : Table} {memory : UInt16} {read : Nat → Bool}
    {k l : Nat} {cs : List Clause} {as : List Action} (hv : table.Valid)
    (h : StandAll table memory read k cs l as) :
    Clause.AllReadable table (slotLabels read 0 k) cs := by
  induction h with
  | nil => trivial
  | @cons k l c rest as bs hn ht _ ih =>
    have hnames : slotLabels read 0 k ++ c.names = slotLabels read 0 (k + c.names.length) := by
      rw [← slotLabels_append, Nat.zero_add, ← hn]
    refine ⟨⟨?_, ?_, ?_⟩, by rw [hnames]; exact ih⟩
    · intro name hm
      rw [hn] at hm
      obtain ⟨j, _, rfl⟩ := List.mem_map.mp hm
      unfold slotLabel
      split
      · exact .inr (isName_slotName j)
      · exact .inl rfl
    · rw [hnames]
      exact nodup_slotLabels read 0 _
    · refine ht.readable_terms hv ?_ ?_
      · rintro j ⟨hj, hr⟩
        exact mem_bindable_slotLabels (Nat.zero_le j) (by omega) hr
      · intro name hm
        rw [hn, bindable_slotLabels, bindable_slotLabels, ← List.map_append] at hm
        obtain ⟨j, _, rfl⟩ := List.mem_map.mp hm
        exact ⟨j, rfl⟩

namespace Decompile

namespace Clauses

variable (referenced : Std.TreeSet Nat)

theorem output_eq (c : Clauses) :
    c.output referenced =
      { c with
        names := slotLabel referenced.contains c.slot :: c.names
        split := c.split || referenced.contains c.slot
        slot := c.slot + 1 } := by
  unfold output slotLabel
  by_cases h : referenced.contains c.slot = true
  · simp [h]
  · simp [h]

theorem outputs_eq (n : Nat) (c : Clauses) :
    (List.replicate n Entry.placeholder).foldl (step referenced) c =
      { c with
        names := (slotLabels referenced.contains c.slot n).reverse ++ c.names
        split := c.split || (List.range' c.slot n).any referenced.contains
        slot := c.slot + n } := by
  induction n generalizing c with
  | zero => simp [slotLabels]
  | succ n ih =>
    rw [List.replicate_succ, List.foldl_cons, ih]
    have hs : step referenced c .placeholder = c.output referenced := rfl
    rw [hs, output_eq]
    simp [slotLabels, List.range'_succ, Bool.or_assoc, Nat.add_assoc, Nat.add_comm 1]

theorem item_eq (item : Item) (c : Clauses) :
    item.entries.foldl (step referenced) c =
      { c.term item.term with
        names := (slotLabels referenced.contains c.slot item.outputs).reverse ++
          (c.term item.term).names
        split := (c.term item.term).split ||
          (List.range' c.slot item.outputs).any referenced.contains
        slot := c.slot + item.outputs } := by
  have hslot : (c.term item.term).slot = c.slot := by
    unfold term
    split <;> rfl
  have hone : ∀ n, (Entry.value item.term :: List.replicate n Entry.placeholder).foldl
      (step referenced) c =
        (List.replicate (n + 1) Entry.placeholder).foldl (step referenced) (c.term item.term) :=
    fun _ => rfl
  unfold Item.entries
  split
  · rename_i h0
    simp [h0, slotLabels, step, ← hslot]
  · rename_i h0
    rw [hone, outputs_eq, hslot, Nat.sub_add_cancel (by omega)]

/-- Statements as far as they are made: the finished ones end before the slot `start`. In an open
statement that is not to be split none of its own slots is read. -/
structure Covers (table : Table) (memory : UInt16) (read : Nat → Bool) (c : Clauses) (start : Nat)
    (before opened : List Action) : Prop where
  done : Clause.StandAll table memory read 0 c.done.reverse start before
  names : c.names.reverse = slotLabels read start c.names.length
  terms : Term.Stands table memory (fun j => j < start ∧ read j = true) false c.terms.reverse
    c.names.length opened
  slot : c.slot = start + c.names.length
  unread : c.split = false → ∀ j, start ≤ j → j < c.slot → read j = false

variable {table : Table} {memory : UInt16} {read : Nat → Bool} {c : Clauses} {start : Nat}
  {before opened : List Action}

theorem Covers.close (h : c.Covers table memory read start before opened) :
    c.close.Covers table memory read c.slot (before ++ opened) [] := by
  refine ⟨?_, rfl, .nil, rfl, ?_⟩
  · have hlen : c.names.reverse.length = c.names.length := List.length_reverse
    have hd : c.close.done.reverse = c.done.reverse ++ [⟨c.names.reverse, c.terms.reverse⟩] := by
      simp [Clauses.close]
    rw [hd, h.slot, ← hlen]
    refine h.done.concat ?_ ?_
    · simpa using h.names
    · simpa using h.terms
  · intro _ j hj hlt
    have hs : c.close.slot = c.slot := rfl
    omega

theorem Covers.ready (h : c.Covers table memory read start before opened) :
    ∃ start' before' opened',
      (if c.split then c.close else c).Covers table memory read start' before' opened' ∧
      before' ++ opened' = before ++ opened ∧
      ∀ j, start' ≤ j → j < c.slot → read j = false := by
  by_cases hs : c.split = true
  · rw [if_pos hs]
    refine ⟨c.slot, before ++ opened, [], h.close, by simp, ?_⟩
    intro j hj hlt
    omega
  · rw [if_neg hs]
    exact ⟨start, before, opened, h, rfl, h.unread (by simpa using hs)⟩

theorem Covers.item (h : c.Covers table memory referenced.contains start before opened)
    {item : Item}
    (hitem : Term.Stands table memory (fun j => j < c.slot ∧ referenced.contains j = true) false
      [item.term] item.outputs item.actions) :
    ∃ start' before' opened', (item.entries.foldl (step referenced) c).Covers table memory
        referenced.contains start' before' opened' ∧
      before' ++ opened' = before ++ opened ++ item.actions := by
  obtain ⟨start', before', opened', hready, hactions, hunread⟩ := h.ready
  have hslot : (if c.split then c.close else c).slot = c.slot := by
    split <;> rfl
  have hterm : c.term item.term =
      { (if c.split then c.close else c) with
        terms := item.term :: (if c.split then c.close else c).terms } := rfl
  generalize (if c.split then c.close else c) = ready at hready hslot hterm
  have hlast : c.slot = start' + ready.names.length := hslot.symm.trans hready.slot
  have hreads : ∀ j, j < c.slot ∧ referenced.contains j = true →
      j < start' ∧ referenced.contains j = true := by
    rintro j ⟨hj, hr⟩
    refine ⟨?_, hr⟩
    by_contra hge
    rw [hunread j (by omega) hj] at hr
    simp at hr
  refine ⟨start', before', opened' ++ item.actions, ?_, ?_⟩
  · rw [item_eq, hterm]
    refine ⟨hready.done, ?_, ?_, ?_, ?_⟩
    · dsimp only
      rw [List.reverse_append, List.reverse_reverse, hready.names, hlast, slotLabels_append,
        List.length_append, List.length_reverse, length_slotLabels, Nat.add_comm]
    · dsimp only
      rw [List.reverse_cons, List.length_append, List.length_reverse, length_slotLabels,
        Nat.add_comm]
      exact hready.terms.append (hitem.mono hreads)
    · dsimp only
      rw [List.length_append, List.length_reverse, length_slotLabels]
      omega
    · intro hsplit j hj hlt
      dsimp only at hsplit hlt
      rw [Bool.or_eq_false_iff, List.any_eq_false] at hsplit
      by_cases hold : j < c.slot
      · exact hunread j hj hold
      · have hn := hsplit.2 j (by rw [List.mem_range'_1]; omega)
        rwa [Bool.not_eq_true] at hn
  · rw [← List.append_assoc, hactions]

theorem Covers.finish (h : c.Covers table memory read start before opened) :
    Clause.StandAll table memory read 0 c.finish c.slot (before ++ opened) := by
  unfold Clauses.finish
  by_cases hempty : (c.names.isEmpty && c.terms.isEmpty) = true
  · rw [if_pos hempty]
    rw [Bool.and_eq_true, List.isEmpty_iff, List.isEmpty_iff] at hempty
    have hopened : opened = [] := by
      have ht := h.terms
      rw [hempty.1, hempty.2, List.reverse_nil, List.length_nil] at ht
      cases ht
      rfl
    rw [h.slot, hempty.1, hopened, List.append_nil]
    exact h.done
  · rw [if_neg hempty]
    exact h.close.done

theorem covers_items {items : List Item}
    (h : ∀ below item above, items = below ++ item :: above →
      Term.Stands table memory (fun j => j < slotsOf below ∧ referenced.contains j = true) false
        [item.term] item.outputs item.actions) :
    ∃ start before opened, ((items.flatMap Item.entries).foldl (step referenced) {}).Covers table
        memory referenced.contains start before opened ∧
      before ++ opened = items.flatMap (·.actions) ∧
      ((items.flatMap Item.entries).foldl (step referenced) {}).slot = slotsOf items := by
  induction items using List.reverseRecOn with
  | nil =>
    refine ⟨0, [], [], ⟨.nil, rfl, .nil, rfl, ?_⟩, rfl, rfl⟩
    intro _ j _ hlt
    exact absurd hlt (Nat.not_lt_zero j)
  | append_singleton items item ih =>
    obtain ⟨start, before, opened, hcovers, hactions, hslot⟩ := ih fun below it above he =>
      h below it (above ++ [item]) (by rw [he]; simp)
    have hitem := h items item [] rfl
    rw [← hslot] at hitem
    obtain ⟨start', before', opened', hcovers', hactions'⟩ := hcovers.item referenced hitem
    rw [List.flatMap_append, List.foldl_append, List.flatMap_singleton]
    refine ⟨start', before', opened', hcovers', ?_, ?_⟩
    · rw [hactions', hactions]
      simp
    · rw [item_eq, slotsOf_append, slotsOf_singleton, ← hslot]

end Clauses

theorem Stack.Holds.clauses {table : Table} {memory : UInt16} {s : Stack} {items : List Item}
    (h : s.Holds table memory items) :
    Clause.StandAll table memory s.referenced.contains 0 s.clauses s.slots
      (items.flatMap (·.actions)) := by
  obtain ⟨start, before, opened, hcovers, hactions, hslot⟩ :=
    Clauses.covers_items s.referenced h.stands
  have hf := hcovers.finish
  rw [hactions, hslot, ← h.slots] at hf
  rw [Stack.clauses, h.entries]
  exact hf

end Decompile

/-- The statements say what the words of a source do. -/
structure Bytecode.Renders (code : Bytecode) (table : Table) (memory : UInt16) (bytes : List UInt8)
    (clauses : List Clause) (as : List Action) : Prop where
  aligned : bytes.length % Instruction.size = 0
  actions : Performs memory code.constant? (Instruction.decode bytes) as
  stand : ∃ read l, Clause.StandAll table memory read 0 clauses l as ∧
    ∀ k, read k = true → k ≤ Instruction.maxIndex

namespace Decompile

variable {table : Table} {memory : UInt16} {code : Bytecode}

theorem source_renders {index : Nat} {bytes : List UInt8} {clauses : List Clause}
    (h : source ⟨table, some memory, code⟩ index bytes = .ok clauses) :
    ∃ as, code.Renders table memory bytes clauses as := by
  unfold source at h
  split at h
  · simp at h
  · rename_i ha
    split at h
    · simp at h
    · rename_i s hs
      simp only [Except.ok.injEq] at h
      subst h
      obtain ⟨items, as, hholds, hactions, has⟩ := words_holds Stack.holds_empty hs
      simp only [List.flatMap_nil, List.nil_append] at hactions
      refine ⟨as, by simpa using ha, has, s.referenced.contains, s.slots, ?_, ?_⟩
      · rw [← hactions]
        exact hholds.clauses
      · exact fun k hk => (hholds.referenced k hk).2

theorem sources_say {index : Nat} {done script : Script} {sources : List (List UInt8)}
    (h : Decompile.sources ⟨table, some memory, code⟩ index done sources = .ok script) :
    ∃ new, script = done.reverse ++ new ∧
      List.Forall₂ (fun bytes clauses => ∃ as, code.Renders table memory bytes clauses as)
        sources new := by
  induction sources generalizing index done with
  | nil =>
    simp only [Decompile.sources, Except.ok.injEq] at h
    subst h
    exact ⟨[], by simp, .nil⟩
  | cons bytes sources ih =>
    rw [Decompile.sources] at h
    split at h
    · simp at h
    · rename_i clauses hc
      obtain ⟨new, rfl, hnew⟩ := ih h
      exact ⟨clauses :: new, by simp, .cons (source_renders hc) hnew⟩

end Decompile

theorem Bytecode.script_renders {code : Bytecode} {table : Table} {memory : String} {number : UInt16}
    {op : Opcode} (hm : table.lookup memory = some (number, op)) {script : Script}
    (h : code.script table memory = .ok script) :
    List.Forall₂ (fun bytes clauses => ∃ as, code.Renders table number bytes clauses as)
      code.sources script := by
  rw [Bytecode.script, hm] at h
  obtain ⟨new, rfl, hnew⟩ := Decompile.sources_say h
  simpa using hnew

end Wordcode
