import Wordcode.Proofs.Tables

namespace Wordcode

/-- The characters make up a text of the form `^[a-z][a-z0-9-]*$`. -/
def IsKey (cs : List Char) : Prop :=
  ∃ c rest, cs = c :: rest ∧ ('a' ≤ c ∧ c ≤ 'z') ∧
    ∀ d ∈ rest, ('a' ≤ d ∧ d ≤ 'z') ∨ ('0' ≤ d ∧ d ≤ '9') ∨ d = '-'

theorem isName_eq_true_iff {word : String} : isName word = true ↔ IsKey word.toList := by
  have hdigit : ∀ d : Char, d.isDigit = true ↔ '0' ≤ d ∧ d ≤ '9' := by
    intro d
    simp only [Char.isDigit, Bool.and_eq_true, decide_eq_true_eq]
    rfl
  unfold isName IsKey
  cases word.toList with
  | nil => simp
  | cons c rest => simp [isLower, hdigit, or_assoc]

namespace OperandItem

def Apart (items : List OperandItem) : Prop :=
  items.Pairwise fun a b => ∀ i, a.bits.Has i → ¬ b.bits.Has i

theorem overlap?_eq_none_iff {items : List OperandItem} :
    overlap? items = none ↔ Apart items := by
  constructor
  · intro h
    have hp := List.pairwise_map.mp (pairwise_of_overlap? h)
    exact hp.imp BitRange.overlaps_eq_false_iff.mp
  · intro h
    induction h with
    | nil => rfl
    | @cons item items hitem h ih =>
      have hnone : items.find? (item.bits.overlaps ·.bits) = none := by
        simp only [List.find?_eq_none, Bool.not_eq_true, BitRange.overlaps_eq_false_iff]
        exact hitem
      rw [overlap?, hnone]
      exact ih

def bitList (item : OperandItem) : List Nat :=
  List.range' item.bits.lo item.bits.width

theorem mem_bitList {item : OperandItem} {i : Nat} : i ∈ item.bitList ↔ item.bits.Has i := by
  have h := item.bits.lo_le_hi
  simp only [bitList, List.mem_range'_1, BitRange.width, BitRange.Has]
  omega

theorem Apart.width_le {items : List OperandItem} (h : Apart items) :
    items.foldr (·.bits.width + ·) 0 ≤ 16 := by
  have hlength : ∀ items : List OperandItem,
      items.foldr (·.bits.width + ·) 0 = (items.flatMap bitList).length := by
    intro items
    induction items with
    | nil => rfl
    | cons item items ih => simp [ih, bitList]
  have hnodup : (items.flatMap bitList).Nodup := by
    rw [List.nodup_flatMap]
    refine ⟨fun item _ => List.nodup_range', h.imp ?_⟩
    intro a b hab i ha hb
    exact hab i (mem_bitList.mp ha) (mem_bitList.mp hb)
  have hsub : items.flatMap bitList ⊆ List.range 16 := by
    intro i hi
    obtain ⟨item, -, hi⟩ := List.mem_flatMap.mp hi
    have hhi := (mem_bitList.mp hi).2
    have hlt := item.bits.hi_lt
    rw [List.mem_range]
    omega
  calc items.foldr (·.bits.width + ·) 0 = (items.flatMap bitList).length := hlength items
    _ ≤ (List.range 16).length := (hnodup.subperm hsub).length_le
    _ = 16 := List.length_range

end OperandItem

namespace Opcode

/-- The names and the operand of an opcode keep to the rules. -/
structure IsSound (op : Opcode) : Prop where
  names : ∀ name ∈ op.names, IsKey (normalize name).toList
  inputs : (op.operand.filter (·.name = "inputs")).length ≤ 1
  apart : OperandItem.Apart op.operand

def keys (op : Opcode) : List String :=
  op.names.map normalize

theorem fault?_eq_none_iff_isSound {op : Opcode} : op.fault? = none ↔ op.IsSound := by
  have hkey : ∀ name, canName name = true ↔ IsKey (normalize name).toList :=
    fun name => isName_eq_true_iff
  have hinputs : op.operand.countP (·.isInputs) =
      (op.operand.filter (·.name = "inputs")).length := by
    rw [List.countP_eq_length_filter]
    rfl
  rw [fault?_eq_none_iff, OperandItem.overlap?_eq_none_iff, hinputs]
  constructor
  · rintro ⟨hname, haliases, hcount, -, hapart⟩
    refine ⟨?_, hcount, hapart⟩
    rw [names, List.forall_mem_cons]
    exact ⟨(hkey _).mp hname, fun name hm => (hkey name).mp (haliases name hm)⟩
  · rintro ⟨hnames, hcount, hapart⟩
    rw [names, List.forall_mem_cons] at hnames
    exact ⟨(hkey _).mpr hnames.1, fun name hm => (hkey name).mpr (hnames.2 name hm), hcount,
      hapart.width_le, hapart⟩

end Opcode

namespace Table

/-- The index knows these keys and no others. -/
def Covers (index : OpcodeIndex) (keys : List String) : Prop :=
  ∀ key, index.contains key = true ↔ key ∈ keys

/-- A step on the index goes through just when what it adds is good and its keys are new and
distinct, and then it adds these keys. -/
structure Takes {α : Type} (step : OpcodeIndex → α → Except Error OpcodeIndex) (good : α → Prop)
    (keysOf : α → List String) : Prop where
  covers : ∀ {index index' : OpcodeIndex} {keys : List String} {a : α}, Covers index keys →
    step index a = .ok index' → Covers index' (keys ++ keysOf a)
  isOk_iff : ∀ {index : OpcodeIndex} {keys : List String} {a : α}, Covers index keys →
    keys.Nodup → ((∃ index', step index a = .ok index') ↔ good a ∧ (keys ++ keysOf a).Nodup)

theorem Takes.foldlM {α : Type} {step : OpcodeIndex → α → Except Error OpcodeIndex}
    {good : α → Prop} {keysOf : α → List String} (h : Takes step good keysOf) :
    Takes (fun index (as : List α) => as.foldlM step index) (fun as => ∀ a ∈ as, good a)
      (fun as => as.flatMap keysOf) := by
  constructor
  · intro index index' keys as hc hs
    induction as generalizing index keys with
    | nil =>
      cases hs
      simpa using hc
    | cons a as ih =>
      rw [List.foldlM_cons] at hs
      cases ha : step index a with
      | error err =>
        rw [ha] at hs
        cases hs
      | ok index₁ =>
        rw [ha] at hs
        simpa using ih (h.covers hc ha) hs
  · intro index keys as hc hn
    induction as generalizing index keys with
    | nil => simpa [hn] using ⟨index, rfl⟩
    | cons a as ih =>
      have hfirst := h.isOk_iff (a := a) hc hn
      simp only [List.foldlM_cons, List.forall_mem_cons, List.flatMap_cons, ← List.append_assoc]
      cases ha : step index a with
      | error err =>
        simp only [ha, reduceCtorEq, exists_false, false_iff] at hfirst
        constructor
        · rintro ⟨index', hs⟩
          cases hs
        · rintro ⟨⟨hgood, -⟩, hnodup⟩
          exact absurd ⟨hgood, (List.nodup_append.mp hnodup).1⟩ hfirst
      | ok index₁ =>
        obtain ⟨hgood, hnodup⟩ := hfirst.mp ⟨index₁, ha⟩
        have hrest := ih (h.covers hc ha) hnodup
        exact hrest.trans ⟨fun hr => ⟨⟨hgood, hr.1⟩, hr.2⟩, fun hr => ⟨hr.1.2, hr.2⟩⟩

theorem addName_takes (number : Nat) :
    Takes (addName number) (fun _ => True) (fun name => [normalize name]) := by
  constructor
  · intro index index' keys name hc hs key
    have hindex : index' = index.insert (normalize name) (UInt16.ofNat number) := by
      simp only [addName] at hs
      split at hs
      · cases hs
      · cases hs
        rfl
    rw [hindex, Std.TreeMap.contains_insert, List.mem_append, List.mem_singleton, ← hc key,
      Bool.or_eq_true, beq_iff_eq, Std.LawfulEqCmp.compare_eq_iff_eq, or_comm, @eq_comm _ key]
  · intro index keys name hc hn
    have hnew : (keys ++ [normalize name]).Nodup ↔ ¬ index.contains (normalize name) = true := by
      rw [hc, List.nodup_append]
      simp only [hn, List.nodup_singleton, List.mem_singleton, forall_eq, true_and]
      exact ⟨fun h hm => h _ hm rfl, fun h key hm he => h (he ▸ hm)⟩
    rw [hnew]
    by_cases hk : index.contains (normalize name) = true
    · simp [addName, hk]
    · simp [addName, hk]

theorem addEntry_takes : Takes (fun index (entry : Opcode × Nat) => addEntry index entry.1 entry.2)
    (fun entry => entry.1.IsSound) (fun entry => entry.1.keys) := by
  have hkeys : ∀ op : Opcode, op.names.flatMap (fun name => [normalize name]) = op.keys :=
    fun op => List.flatMap_pure_eq_map normalize op.names
  constructor
  · rintro index index' keys ⟨op, number⟩ hc hs
    simp only [addEntry] at hs
    split at hs
    · cases hs
    · rw [← hkeys]
      exact (addName_takes number).foldlM.covers hc hs
  · rintro index keys ⟨op, number⟩ hc hn
    have hnames := (addName_takes number).foldlM.isOk_iff (a := op.names) hc hn
    rw [← hkeys, ← Opcode.fault?_eq_none_iff_isSound]
    simp only [addEntry]
    split
    · rename_i fault hfault
      simp [hfault]
    · rename_i hfault
      simpa [hfault] using hnames

theorem exists_ofEntries_iff {entries : List Opcode} :
    (∃ table, ofEntries entries = .ok table) ↔
      (1 ≤ entries.length ∧ entries.length ≤ 65536) ∧ ∃ index,
        entries.zipIdx.foldlM (fun index (op, number) => addEntry index op number) ∅ = .ok index := by
  unfold ofEntries
  by_cases hempty : entries.isEmpty = true
  · rw [if_pos hempty, List.isEmpty_iff.mp hempty]
    constructor
    · rintro ⟨table, h⟩
      cases h
    · rintro ⟨⟨h, -⟩, -⟩
      cases h
  rw [if_neg hempty]
  have hpos : 1 ≤ entries.length := by
    rw [List.isEmpty_iff] at hempty
    exact List.length_pos_iff.mpr hempty
  by_cases hmany : maxEntries < entries.length
  · rw [if_pos hmany]
    constructor
    · rintro ⟨table, h⟩
      cases h
    · rintro ⟨⟨-, h⟩, -⟩
      exact absurd hmany (Nat.not_lt.mpr h)
  rw [if_neg hmany]
  cases hi : entries.zipIdx.foldlM (fun index (op, number) => addEntry index op number) ∅ with
  | error err =>
    constructor
    · rintro ⟨table, h⟩
      cases h
    · rintro ⟨-, index, h⟩
      cases h
  | ok index => exact ⟨fun _ => ⟨⟨hpos, Nat.not_lt.mp hmany⟩, index, rfl⟩, fun _ => ⟨_, rfl⟩⟩

theorem covers_empty : Covers ∅ [] := by
  intro key
  simp

def keys (entries : List Opcode) : List String :=
  entries.flatMap Opcode.keys

theorem zipIdx_flatMap_keys (entries : List Opcode) :
    entries.zipIdx.flatMap (fun entry => entry.1.keys) = keys entries := by
  rw [keys, ← List.flatMap_map, List.zipIdx_map_fst]

theorem ofEntries_isOk_iff {entries : List Opcode} :
    (∃ table, ofEntries entries = .ok table) ↔
      (1 ≤ entries.length ∧ entries.length ≤ 65536) ∧ (∀ op ∈ entries, op.IsSound) ∧
        (keys entries).Nodup := by
  have hsteps := addEntry_takes.foldlM.isOk_iff (a := entries.zipIdx) covers_empty List.nodup_nil
  have hsound : (∀ entry ∈ entries.zipIdx, entry.1.IsSound) ↔ ∀ op ∈ entries, op.IsSound := by
    conv_rhs => rw [← List.zipIdx_map_fst 0 entries, List.forall_mem_map]
  rw [exists_ofEntries_iff, ← hsound, ← zipIdx_flatMap_keys]
  exact and_congr_right fun _ => hsteps

theorem mem_keys_of_index {entries : List Opcode} {table : Table}
    (h : ofEntries entries = .ok table) {key : String} {number : UInt16}
    (hk : table.index.get? key = some number) : key ∈ keys entries := by
  have hcovers : Covers table.index (keys entries) := by
    rw [← zipIdx_flatMap_keys]
    exact addEntry_takes.foldlM.covers covers_empty (ofEntries_ok h).1
  rw [← hcovers, Std.TreeMap.contains_eq_isSome_getElem?]
  exact Option.isSome_of_mem hk

theorem mem_keys_of_lookup {entries : List Opcode} {table : Table}
    (h : ofEntries entries = .ok table) {word : String} {number : UInt16} {op : Opcode}
    (hl : table.lookup word = some (number, op)) : normalize word ∈ keys entries := by
  simp only [lookup, Option.bind_eq_bind, Option.bind_eq_some_iff] at hl
  obtain ⟨k, hk, -⟩ := hl
  exact mem_keys_of_index h hk

theorem toNat_ofNat {i : Nat} (h : i ≤ 65535) : (UInt16.ofNat i).toNat = i :=
  UInt16.toNat_ofNat_of_lt' (Nat.lt_succ_of_le h)

theorem lookup_of_getElem? {entries : List Opcode} {table : Table}
    (h : ofEntries entries = .ok table) {i : Nat} {op : Opcode} (hop : entries[i]? = some op)
    {word : String} (hw : normalize word ∈ op.keys) :
    i ≤ 65535 ∧ table.lookup word = some (UInt16.ofNat i, op) := by
  have hlt : i < entries.length := (List.getElem?_eq_some_iff.mp hop).1
  have hmax : entries.length ≤ 65536 := (ofEntries_isOk_iff.mp ⟨table, h⟩).1.2
  have hi : (UInt16.ofNat i).toNat = i := toNat_ofNat (by omega)
  obtain ⟨name, hname, hkey⟩ := List.mem_map.mp hw
  exact ⟨by omega, lookup_of_mem_names h (by rwa [hi]) hname hkey.symm⟩

theorem lookup_eq_some_iff {entries : List Opcode} {table : Table}
    (h : ofEntries entries = .ok table) {word : String} {number : UInt16} {op : Opcode} :
    table.lookup word = some (number, op) ↔
      entries[number.toNat]? = some op ∧ normalize word ∈ op.keys := by
  constructor
  · intro hl
    obtain ⟨op', hmem, hkey⟩ := List.mem_flatMap.mp (mem_keys_of_lookup h hl)
    obtain ⟨i, hop⟩ := List.mem_iff_getElem?.mp hmem
    obtain ⟨hi, hfound⟩ := lookup_of_getElem? h hop hkey
    rw [hl, Option.some.injEq, Prod.mk.injEq] at hfound
    obtain ⟨rfl, rfl⟩ := hfound
    rw [toNat_ofNat hi]
    exact ⟨hop, hkey⟩
  · rintro ⟨hop, hkey⟩
    simpa using (lookup_of_getElem? h hop hkey).2

theorem get?_eq_getElem? {entries : List Opcode} {table : Table}
    (h : ofEntries entries = .ok table) (number : UInt16) :
    table.get? number = entries[number.toNat]? := by
  rw [get?, (ofEntries_ok h).2, List.getElem?_toArray]

/-- A table is made just when there are 1 to 65536 opcodes, each of them sound, and no key is there
twice. In a table a word finds the one opcode with its key, also by the last number. -/
theorem ofEntries_lookup (entries : List Opcode) :
    ((∃ table, ofEntries entries = .ok table) ↔
      (1 ≤ entries.length ∧ entries.length ≤ 65536) ∧ (∀ op ∈ entries, op.IsSound) ∧
        (keys entries).Nodup) ∧
    (∀ op : Opcode, OperandItem.Apart op.operand → op.width ≤ 16) ∧
    ∀ table, ofEntries entries = .ok table →
      (∀ number, table.get? number = entries[number.toNat]?) ∧
      (∀ (word : String) (number : UInt16) (op : Opcode),
        table.lookup word = some (number, op) ↔
          entries[number.toNat]? = some op ∧ normalize word ∈ op.keys) ∧
      (∀ (word : String) (i j : Nat) (op op' : Opcode), entries[i]? = some op →
        normalize word ∈ op.keys → entries[j]? = some op' → normalize word ∈ op'.keys → i = j) ∧
      ∀ (i : Nat) (op : Opcode), entries[i]? = some op → ∀ name ∈ op.names,
        i ≤ 65535 ∧ table.lookup name = some (UInt16.ofNat i, op) := by
  refine ⟨ofEntries_isOk_iff, fun op h => h.width_le, fun table h => ?_⟩
  refine ⟨get?_eq_getElem? h, fun word number op => lookup_eq_some_iff h, ?_, ?_⟩
  · intro word i j op op' hi hkey hj hkey'
    obtain ⟨hile, hil⟩ := lookup_of_getElem? h hi hkey
    obtain ⟨hjle, hjl⟩ := lookup_of_getElem? h hj hkey'
    rw [hil, Option.some.injEq, Prod.mk.injEq] at hjl
    have hnat := congrArg UInt16.toNat hjl.1
    rwa [toNat_ofNat hile, toNat_ofNat hjle] at hnat
  · intro i op hi name hname
    exact lookup_of_getElem? h hi (List.mem_map_of_mem hname)

theorem ofEntries_lookup_builtin :
    (∀ op ∈ Builtin.opcodes, op.IsSound) ∧ (keys Builtin.opcodes).Nodup ∧
      (∃ op, builtin.lookup "READ_Memory" = some (0, op)) ∧
      ¬ ∃ table, ofEntries [⟨"add", "", [], [], .fixed 2, .fixed 1⟩,
        ⟨"sum", "", ["ADD"], [], .fixed 2, .fixed 1⟩] = .ok table := by
  obtain ⟨hok, -, hfound⟩ := ofEntries_lookup Builtin.opcodes
  obtain ⟨-, hsound, hkeys⟩ := hok.mp ⟨builtin, ofEntries_builtin⟩
  obtain ⟨-, hlookup, -⟩ := hfound builtin ofEntries_builtin
  obtain ⟨read, hread, -⟩ := lookup_builtin_memory
  obtain ⟨hop, hkey⟩ := (hlookup _ _ _).mp hread
  refine ⟨hsound, hkeys, ⟨read, (hlookup _ _ _).mpr ⟨hop, ?_⟩⟩, ?_⟩
  · have hsame : normalize "READ_Memory" = normalize "read-memory" := by decide +kernel
    rwa [hsame]
  · rw [(ofEntries_lookup _).1]
    rintro ⟨-, -, hnodup⟩
    exact absurd hnodup (by decide +kernel)

end Table

end Wordcode
