import Wordcode.Proofs.Codec
import Wordcode.Proofs.Emission
import Wordcode.Proofs.Serialization
import Wordcode.Proofs.Values

namespace Wordcode

namespace Bytecode

/-- Sources are made of whole words, and constants are numerals or sentinels within blanks. -/
structure IsSound (code : Bytecode) : Prop where
  aligned : ∀ source ∈ code.sources, source.length % 4 = 0
  constants : ∀ text ∈ code.constants, ∃ n, Literal.Means (trimmed text) n

theorem findSome?_zipIdx_eq_none_iff {α β : Type} {xs : List α} {f : α × Nat → Option β}
    {P : α → Prop} (h : ∀ x i, f (x, i) = none ↔ P x) :
    xs.zipIdx.findSome? f = none ↔ ∀ x ∈ xs, P x := by
  rw [List.findSome?_eq_none_iff]
  constructor
  · intro hnone x hx
    obtain ⟨i, hi⟩ := List.mem_iff_getElem?.mp hx
    exact (h x i).mp (hnone (x, i) (List.mk_mem_zipIdx_iff_getElem?.mpr hi))
  · rintro hall ⟨x, i⟩ hm
    exact (h x i).mpr (hall x (List.mem_of_getElem? (List.mk_mem_zipIdx_iff_getElem?.mp hm)))

theorem misaligned?_eq_none_iff {code : Bytecode} :
    code.misaligned? = none ↔ ∀ source ∈ code.sources, source.length % 4 = 0 := by
  apply findSome?_zipIdx_eq_none_iff
  intro source i
  by_cases h : source.length % 4 = 0 <;> simp [Instruction.size, h]

theorem badConstant?_eq_none_iff {code : Bytecode} : code.badConstant? = none ↔
    ∀ text ∈ code.constants, ∃ n, Literal.read (trimmed text) = .ok n := by
  apply findSome?_zipIdx_eq_none_iff
  intro text i
  cases h : Literal.read (trimmed text) <;> simp [readConstant, h]

theorem validate_eq_ok_iff {code : Bytecode} : code.validate = .ok () ↔
    (∀ source ∈ code.sources, source.length % 4 = 0) ∧
      ∀ text ∈ code.constants, ∃ n, Literal.read (trimmed text) = .ok n := by
  rw [← misaligned?_eq_none_iff, ← badConstant?_eq_none_iff, ← Option.or_eq_none_iff, validate]
  cases code.misaligned?.or code.badConstant? <;> simp

theorem validate_eq_ok_iff_isSound {code : Bytecode}
    (hr : ∀ text ∈ code.constants, Literal.InReach (trimmed text)) :
    code.validate = .ok () ↔ code.IsSound := by
  have hconstants : (∀ text ∈ code.constants, ∃ n, Literal.read (trimmed text) = .ok n) ↔
      ∀ text ∈ code.constants, ∃ n, Literal.Means (trimmed text) n :=
    forall₂_congr fun text ht => exists_congr fun n => Literal.read_eq_ok_iff_means (hr text ht)
  rw [validate_eq_ok_iff, hconstants]
  exact ⟨fun h => ⟨h.1, h.2⟩, fun h => ⟨h.aligned, h.constants⟩⟩

theorem source?_sourceText (source : List UInt8) : source? (sourceText source) = some source := by
  have htext : "0x" ++ Hex.encode source =
      String.ofList (['0', 'x'] ++ (Hex.encode source).toList) := by
    rw [← String.toList_inj]
    simp
  have hspells := Hex.spells_encode source
  have hdecode : Hex.decode (Hex.dropMark ("0x" ++ Hex.encode source)) = .ok source := by
    rw [htext, Hex.dropMark_of_spells hspells (.inr rfl), Hex.decode_of_spells hspells]
  simp [sourceText, source?, Json.string?, hdecode, Except.toOption]

theorem toJson_eq (code : Bytecode) : code.toJson = .object (Json.fieldsOf ["sources", "constants"]
    [some (.list sourceText code.sources), some (.strings code.constants)]) :=
  rfl

theorem ofJson?_toJson (code : Bytecode) : ofJson? code.toJson = some code := by
  have hsources : Json.list? source? (.list sourceText code.sources) = some code.sources :=
    Json.list?_list fun source _ => source?_sourceText source
  have hconstants : Json.list? Json.string? (.strings code.constants) = some code.constants :=
    Json.list?_list fun text _ => rfl
  rw [toJson_eq, ofJson?, Json.record?_fieldsOf rfl (by decide)]
  simp [hsources, hconstants]

theorem fits_toJson (code : Bytecode) : Json.Fits 2 code.toJson := by
  rw [toJson_eq]
  apply Json.Fits.object
  intro v hv
  simp only [List.mem_cons, List.not_mem_nil, or_false, Option.some.injEq] at hv
  obtain rfl | rfl := hv
  · exact .list fun source _ => .string _
  · exact .list fun text _ => .string text

theorem ofJson?_read_write (code : Bytecode) :
    (Json.read code.write.toList).bind ofJson? = some code := by
  have hread : Json.read code.write.toList = some code.toJson :=
    Json.read_pretty code.fits_toJson.plain
  rw [hread, Option.bind_some, ofJson?_toJson]

theorem read_write (code : Bytecode) : read code.write = code.validate.map fun _ => code := by
  rw [read, ofJson?_read_write]
  dsimp only
  cases code.validate <;> rfl

theorem read_write_eq_ok_iff_validate {code : Bytecode} :
    read code.write = .ok code ↔ code.validate = .ok () := by
  rw [read_write]
  cases code.validate <;> simp [Except.map]

theorem exists_decimal_of_compile {table : Table} {memory : String} {text : List Char}
    {code : Bytecode} (h : (Document.read table text).compile table memory = .ok code) :
    (∀ source ∈ code.sources, source.length % 4 = 0) ∧
      ∀ text ∈ code.constants, ∃ v ≤ Literal.maxValue, trimmed text = decimal v := by
  obtain ⟨number, op, wss, pool, -, -, hemits, rfl⟩ := Document.compile_emits h
  have hgood := (hemits.pool_good Pool.good_empty).1
  constructor
  · intro source hs
    obtain ⟨ws, -, rfl⟩ := List.mem_map.mp hs
    rw [Instruction.length_encode]
    exact Nat.mul_mod_right 4 _
  · intro text ht
    obtain ⟨v, hv, rfl⟩ := List.mem_map.mp ht
    exact ⟨v, hgood.bounded v hv, trimmed_decimal v⟩

/-- The written form of any code has the code in it. Where all constants are in reach, it passes the
checks of the reader just when the code is sound. A constant of less than `2 ^ 32` characters that
is out of reach is refused, and compiled code is sound and read again. -/
theorem read_write_eq_ok_iff (code : Bytecode) :
    (Json.read code.write.toList).bind ofJson? = some code ∧
      ((∀ text ∈ code.constants, Literal.InReach (trimmed text)) →
        (read code.write = .ok code ↔ code.IsSound)) ∧
      ((∀ text ∈ code.constants, (trimmed text).length < 2 ^ 32) → read code.write = .ok code →
        ∀ text ∈ code.constants, Literal.InReach (trimmed text)) ∧
      ∀ (table : Table) (memory : String) (text : List Char),
        (Document.read table text).compile table memory = .ok code →
          code.IsSound ∧ read code.write = .ok code := by
  rw [read_write_eq_ok_iff_validate]
  refine ⟨ofJson?_read_write code, validate_eq_ok_iff_isSound, ?_, ?_⟩
  · intro hlength hvalid text ht
    obtain ⟨n, hn⟩ := (validate_eq_ok_iff.mp hvalid).2 text ht
    exact Literal.inReach_of_read (hlength text ht) hn
  · intro table memory text h
    obtain ⟨haligned, hconstants⟩ := exists_decimal_of_compile h
    refine ⟨⟨haligned, ?_⟩, validate_eq_ok_iff.mpr ⟨haligned, ?_⟩⟩
    · intro text ht
      obtain ⟨v, hv, htrim⟩ := hconstants text ht
      exact ⟨v, htrim ▸ Literal.means_decimal hv⟩
    · intro text ht
      obtain ⟨v, hv, htrim⟩ := hconstants text ht
      exact ⟨v, htrim ▸ Literal.read_decimal hv⟩

theorem read_write_eq_ok_iff_escaped :
    let code : Bytecode := ⟨[[0xAB, 0x00, 0xFF], []], [" 0x1F\n", "\x01\"\\é", ""]⟩
    let compiled : Bytecode := ⟨[Instruction.encode [⟨0, 1⟩, ⟨0, 3⟩, ⟨1, 2⟩]], ["31", "5"]⟩
    (∀ text ∈ code.constants, Literal.InReach (trimmed text)) ∧
      (Json.read code.write.toList).bind ofJson? = some code ∧ read code.write ≠ .ok code ∧
      (Document.read Table.builtin "_: add(0x1F 5);".toList).compile Table.builtin "read-memory" =
        .ok compiled ∧ compiled.IsSound ∧ read compiled.write = .ok compiled := by
  intro code compiled
  have hreach : ∀ text ∈ code.constants, Literal.InReach (trimmed text) := by
    have hlength : ∀ text ∈ code.constants, (trimmed text).length < 2 ^ 32 - 64 := by decide +kernel
    exact fun text ht => .inl (hlength text ht)
  obtain ⟨htext, hcode, -⟩ := read_write_eq_ok_iff code
  obtain ⟨-, -, -, hsound⟩ := read_write_eq_ok_iff compiled
  have hcompile : (Document.read Table.builtin "_: add(0x1F 5);".toList).compile Table.builtin
      "read-memory" = .ok compiled := by decide +kernel
  refine ⟨hreach, htext, ?_, hcompile, hsound _ _ _ hcompile⟩
  rw [ne_eq, hcode hreach]
  intro hs
  have hlength := hs.aligned [0xAB, 0x00, 0xFF] (by simp [code])
  cases hlength

/-- A sound code may be refused, and one that is not sound accepted, where a constant is out of
reach. -/
theorem read_write_shifted :
    let far : Bytecode := ⟨[], [Literal.farWord]⟩
    let wrapped : Bytecode := ⟨[], [Literal.wrappedWord]⟩
    far.IsSound ∧ read far.write ≠ .ok far ∧
      ¬ wrapped.IsSound ∧ read wrapped.write = .ok wrapped := by
  intro far wrapped
  have hfar : trimmed Literal.farWord = Literal.farWord :=
    trimmed_eq_self Literal.spells_farWord.isWord
  have hwrapped : trimmed Literal.wrappedWord = Literal.wrappedWord :=
    trimmed_eq_self Literal.spells_wrappedWord.isWord
  refine ⟨⟨by simp [far], ?_⟩, ?_, ?_, ?_⟩
  · simpa [far, hfar] using ⟨_, Literal.means_farWord⟩
  · rw [ne_eq, read_write_eq_ok_iff_validate, validate_eq_ok_iff]
    simp [far, hfar, Literal.read_farWord]
  · intro hs
    obtain ⟨n, hn⟩ := hs.constants Literal.wrappedWord List.mem_cons_self
    rw [hwrapped] at hn
    exact Literal.not_means_wrappedWord n hn
  · rw [read_write_eq_ok_iff_validate, validate_eq_ok_iff]
    simp [wrapped, hwrapped, Literal.read_wrappedWord]

end Bytecode

end Wordcode
