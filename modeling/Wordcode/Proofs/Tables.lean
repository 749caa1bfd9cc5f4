import Wordcode.Opcode.Builtin
import Wordcode.Proofs.Packing

namespace Wordcode

/-- The opcode takes nothing from the stack and puts one value on it, whatever its operand is. -/
def Opcode.IsRead (op : Opcode) : Prop :=
  ∀ operand, op.inputCount operand = some 0 ∧ op.outputCount operand = some 1

namespace Table

theorem get?_of_lookup {table : Table} {word : String} {number : UInt16} {op : Opcode}
    (h : table.lookup word = some (number, op)) : table.get? number = some op := by
  simp only [lookup, Option.bind_eq_bind, Option.bind_eq_some_iff, Option.pure_def,
    Option.some.injEq, Prod.mk.injEq] at h
  obtain ⟨k, _, op', hop, rfl, rfl⟩ := h
  exact hop

def Reads (table : Table) (memory : UInt16) : Prop :=
  ∃ read, table.get? memory = some read ∧ read.IsRead

/-- The opcodes are described as they should be, and each is found by its name. -/
structure Valid (table : Table) : Prop where
  sound : ∀ number op, table.get? number = some op → op.fault? = none
  found : ∀ number op, table.get? number = some op → table.lookup op.name = some (number, op)

def Extends (index index' : OpcodeIndex) : Prop :=
  ∀ (key : String) (number : UInt16), index[key]? = some number → index'[key]? = some number

theorem addName_ok {number : Nat} {index index' : OpcodeIndex} {name : String}
    (h : addName number index name = .ok index') :
    Extends index index' ∧ index'[normalize name]? = some (UInt16.ofNat number) := by
  unfold addName at h
  dsimp only at h
  split at h
  · simp at h
  · rename_i hc
    simp only [Except.ok.injEq] at h
    subst h
    refine ⟨?_, by simp⟩
    intro key n hk
    have hne : normalize name ≠ key := by
      rintro rfl
      rw [Std.TreeMap.contains_eq_isSome_getElem?, hk] at hc
      exact hc rfl
    rw [Std.TreeMap.getElem?_insert]
    simp [hne, hk]

theorem addNames_ok {number : Nat} {names : List String} {index index' : OpcodeIndex}
    (h : names.foldlM (addName number) index = .ok index') :
    Extends index index' ∧
      ∀ name ∈ names, index'[normalize name]? = some (UInt16.ofNat number) := by
  induction names generalizing index with
  | nil =>
    cases h
    exact ⟨fun _ _ hk => hk, by simp⟩
  | cons name names ih =>
    rw [List.foldlM_cons] at h
    cases ha : addName number index name with
    | error err =>
      rw [ha] at h
      cases h
    | ok index₁ =>
      rw [ha] at h
      obtain ⟨he, hn⟩ := addName_ok ha
      obtain ⟨he₁, hn₁⟩ := ih h
      refine ⟨fun key n hk => he₁ key n (he key n hk), ?_⟩
      intro other hm
      rcases List.mem_cons.mp hm with rfl | hm
      · exact he₁ _ _ hn
      · exact hn₁ other hm

theorem addEntry_ok {index index' : OpcodeIndex} {op : Opcode} {number : Nat}
    (h : addEntry index op number = .ok index') :
    op.fault? = none ∧ Extends index index' ∧
      ∀ name ∈ op.names, index'[normalize name]? = some (UInt16.ofNat number) := by
  unfold addEntry at h
  split at h
  · simp at h
  · rename_i hf
    obtain ⟨he, hn⟩ := addNames_ok h
    exact ⟨hf, he, hn⟩

theorem addEntries_ok {entries : List (Opcode × Nat)} {index index' : OpcodeIndex}
    (h : entries.foldlM (fun index (op, number) => addEntry index op number) index = .ok index') :
    Extends index index' ∧ ∀ op number, (op, number) ∈ entries → op.fault? = none ∧
      ∀ name ∈ op.names, index'[normalize name]? = some (UInt16.ofNat number) := by
  induction entries generalizing index with
  | nil =>
    cases h
    exact ⟨fun _ _ hk => hk, by simp⟩
  | cons entry entries ih =>
    obtain ⟨op, number⟩ := entry
    rw [List.foldlM_cons] at h
    dsimp only at h
    cases ha : addEntry index op number with
    | error err =>
      rw [ha] at h
      cases h
    | ok index₁ =>
      rw [ha] at h
      obtain ⟨hf, he, hn⟩ := addEntry_ok ha
      obtain ⟨he₁, hn₁⟩ := ih h
      refine ⟨fun key n hk => he₁ key n (he key n hk), ?_⟩
      intro op' number' hm
      rcases List.mem_cons.mp hm with heq | hm
      · cases heq
        exact ⟨hf, fun name hname => he₁ _ _ (hn name hname)⟩
      · exact hn₁ op' number' hm

theorem ofEntries_ok {entries : List Opcode} {table : Table} (h : ofEntries entries = .ok table) :
    entries.zipIdx.foldlM (fun index (op, number) => addEntry index op number) ∅ =
        .ok table.index ∧ table.entries = entries.toArray := by
  unfold ofEntries at h
  by_cases hempty : entries.isEmpty = true
  · rw [if_pos hempty] at h
    cases h
  rw [if_neg hempty] at h
  by_cases hmany : maxEntries < entries.length
  · rw [if_pos hmany] at h
    cases h
  rw [if_neg hmany] at h
  cases hi : entries.zipIdx.foldlM (fun index (op, number) => addEntry index op number) ∅ with
  | error err =>
    rw [hi] at h
    cases h
  | ok index =>
    rw [hi] at h
    cases h
    exact ⟨rfl, rfl⟩

theorem mem_of_get? {entries : List Opcode} {table : Table} (h : ofEntries entries = .ok table)
    {number : UInt16} {op : Opcode} (hg : table.get? number = some op) :
    (op, number.toNat) ∈ entries.zipIdx := by
  obtain ⟨-, he⟩ := ofEntries_ok h
  rw [get?, he, List.getElem?_toArray] at hg
  rw [List.mk_mem_zipIdx_iff_getElem?]
  exact hg

theorem ofEntries_valid {entries : List Opcode} {table : Table}
    (h : ofEntries entries = .ok table) : table.Valid := by
  obtain ⟨hi, -⟩ := ofEntries_ok h
  obtain ⟨-, hn⟩ := addEntries_ok hi
  refine ⟨fun number op hg => (hn op _ (mem_of_get? h hg)).1, ?_⟩
  intro number op hg
  have hl := (hn op _ (mem_of_get? h hg)).2 op.name (by simp [Opcode.names])
  rw [UInt16.ofNat_toNat] at hl
  simp [lookup, hl, hg]

theorem lookup_of_mem_names {entries : List Opcode} {table : Table}
    (h : ofEntries entries = .ok table) {number : UInt16} {op : Opcode}
    (hop : entries[number.toNat]? = some op) {name word : String} (hw : word ∈ op.names)
    (hn : normalize name = normalize word) : table.lookup name = some (number, op) := by
  obtain ⟨hi, he⟩ := ofEntries_ok h
  have hmem : (op, number.toNat) ∈ entries.zipIdx := List.mk_mem_zipIdx_iff_getElem?.mpr hop
  have hl := ((addEntries_ok hi).2 op _ hmem).2 word hw
  rw [UInt16.ofNat_toNat, ← hn] at hl
  have hg : table.get? number = some op := by
    rw [get?, he, List.getElem?_toArray, hop]
  simp [lookup, hl, hg]

theorem ofEntries_builtin : ofEntries Builtin.opcodes = .ok builtin := by
  have h : (ofEntries Builtin.opcodes).isOk = true := by decide +kernel
  unfold builtin
  cases he : ofEntries Builtin.opcodes with
  | error err =>
    rw [he] at h
    cases h
  | ok table => rfl

theorem lookup_builtin_memory :
    ∃ read, builtin.lookup "read-memory" = some (0, read) ∧ read.IsRead := by
  have h : (builtin.lookup "read-memory").map (fun found =>
      (found.1, found.2.inputs, found.2.outputs)) = some (0, .fixed 0, .fixed 1) := by
    decide +kernel
  rw [Option.map_eq_some_iff] at h
  obtain ⟨⟨number, read⟩, hl, hf⟩ := h
  simp only [Prod.mk.injEq] at hf
  obtain ⟨rfl, hi, ho⟩ := hf
  refine ⟨read, hl, ?_⟩
  intro operand
  rw [Opcode.inputCount, Opcode.outputCount, hi, ho]
  exact ⟨rfl, rfl⟩

end Table

namespace Builtin

theorem minusOne_injective {a b : Nat} {n : Int} (ha : minusOne.eval a = .ok n)
    (hb : minusOne.eval b = .ok n) : a = b := by
  have heval : ∀ c : Nat, minusOne.eval c = .ok n → (c : Int) - 1 = n := by
    intro c hc
    simp only [Formula.eval, minusOne, Formula.Expr.eval, Formula.Op.apply, Formula.checked] at hc
    split at hc
    · simpa using hc
    · simp at hc
  have := heval a ha
  have := heval b hb
  omega

theorem isInvertible_of_formula {op : Opcode} (h : ∀ item ∈ op.userItems,
    item.formula = none ∨ item.formula = some minusOne) : op.IsInvertible := by
  intro item hitem
  obtain hnone | hsome := h item hitem
  · exact OperandItem.isInvertible_of_formula_eq_none hnone
  · intro f hf a b n _ _ ha hb
    rw [hsome, Option.some.injEq] at hf
    subst hf
    exact minusOne_injective ha hb

theorem isInvertible : ∀ op ∈ opcodes, op.IsInvertible := by
  have hf : ∀ op ∈ opcodes, ∀ item ∈ op.userItems,
      item.formula = none ∨ item.formula = some minusOne := by decide +kernel
  exact fun op hop => isInvertible_of_formula (hf op hop)

end Builtin

end Wordcode
