import Wordcode.Opcode.Archive
import Wordcode.Proofs.Tables
import Wordcode.Proofs.Wire

namespace Wordcode

/-! ## Bytes of a text -/

def utf8 (text : String) : List UInt8 :=
  text.toUTF8.data.toList

theorem fromUTF8?_utf8 (text : String) : String.fromUTF8? ⟨(utf8 text).toArray⟩ = some text := by
  have h : (⟨(utf8 text).toArray⟩ : ByteArray) = text.toByteArray := by
    simp [utf8]
  rw [h, String.fromUTF8?, dif_pos text.isValidUTF8]
  rfl

theorem readBytes_utf8 (text : String) : Json.readBytes (utf8 text) = Json.read text.toList := by
  rw [Json.readBytes, fromUTF8?_utf8]

theorem utf8_append (s t : String) : utf8 (s ++ t) = utf8 s ++ utf8 t := by
  simp [utf8]

theorem utf8_ofList {cs : List Char} (h : ∀ c ∈ cs, c.toNat < 128) :
    utf8 (String.ofList cs) = cs.map fun c => UInt8.ofNat c.toNat := by
  have hc : ∀ c ∈ cs, String.utf8EncodeChar c = [UInt8.ofNat c.toNat] := by
    intro c hm
    have hlt := h c hm
    apply String.utf8EncodeChar_eq_singleton
    rw [Char.utf8Size_eq_one_iff, UInt32.le_iff_toNat_le]
    exact Nat.le_of_lt_succ hlt
  rw [utf8, String.toUTF8_eq_toByteArray, String.toByteArray_ofList, List.utf8Encode,
    List.flatMap_congr hc, ← List.map_eq_flatMap]
  simp

/-! ## Hexadecimal digits -/

theorem digitValue?_toLower (c : Char) : digitValue? c.toLower = digitValue? c := by
  by_cases h : c.val ≥ 'A'.val ∧ c.val ≤ 'Z'.val
  · obtain ⟨hA, hZ⟩ := h
    have hlo : 65 ≤ c.toNat := hA
    have hhi : c.toNat ≤ 90 := hZ
    rw [← Char.ofNat_toNat c]
    generalize c.toNat = n at hlo hhi
    interval_cases n <;> decide
  · rw [Char.toLower, dif_neg h]

theorem toNat_lt_of_isDigit {c : Char} (h : isDigit 16 c = true) : c.toNat < 128 := by
  unfold isDigit digitValue? at h
  split at h
  · rename_i hc
    exact Nat.lt_of_le_of_lt hc.2 (by decide)
  split at h
  · rename_i hc
    exact Nat.lt_of_le_of_lt hc.2 (by decide)
  split at h
  · rename_i hc
    exact Nat.lt_of_le_of_lt hc.2 (by decide)
  · simp at h

theorem isDigit_of_digitValue? {c : Char} {n : Nat} (h : digitValue? c = some n) (hn : n < 16) :
    isDigit 16 c = true := by
  simp [isDigit, h, hn]

namespace Hex

theorem toList_encode_cons (b : UInt8) (bytes : List UInt8) :
    (encode (b :: bytes)).toList =
      Nat.digitChar (b.toNat / 16) :: Nat.digitChar (b.toNat % 16) :: (encode bytes).toList := by
  simp [encode]

/-- The digits spell the bytes, each digit in either letter case. -/
def Spells (digits : List Char) (bytes : List UInt8) : Prop :=
  digits.map Char.toLower = (encode bytes).toList

theorem spells_map {f : Char → Char}
    (hf : ∀ n < 16, (f (Nat.digitChar n)).toLower = Nat.digitChar n) (bytes : List UInt8) :
    Spells ((encode bytes).toList.map f) bytes := by
  induction bytes with
  | nil => rfl
  | cons b bytes ih =>
    have hb : b.toNat < 256 := b.toNat_lt
    rw [Spells] at ih ⊢
    rw [toList_encode_cons, List.map_cons, List.map_cons, List.map_cons, List.map_cons, ih,
      hf _ (by omega), hf _ (by omega)]

theorem spells_toUpper (bytes : List UInt8) :
    Spells ((encode bytes).toList.map Char.toUpper) bytes :=
  spells_map (by decide) bytes

theorem spells_encode (bytes : List UInt8) : Spells (encode bytes).toList bytes := by
  simpa using spells_map (f := id) (by decide) bytes

theorem Spells.exists_cons {digits : List Char} {b : UInt8} {bytes : List UInt8}
    (h : Spells digits (b :: bytes)) :
    ∃ high low rest, digits = high :: low :: rest ∧ digitValue? high = some (b.toNat / 16) ∧
      digitValue? low = some (b.toNat % 16) ∧ Spells rest bytes := by
  rw [Spells, toList_encode_cons] at h
  have hb : b.toNat < 256 := b.toNat_lt
  obtain ⟨high, digits, rfl, hhigh, h⟩ := List.map_eq_cons_iff.mp h
  obtain ⟨low, rest, rfl, hlow, h⟩ := List.map_eq_cons_iff.mp h
  refine ⟨high, low, rest, rfl, ?_, ?_, h⟩
  · rw [← digitValue?_toLower, hhigh, digitValue?_digitChar (by omega)]
  · rw [← digitValue?_toLower, hlow, digitValue?_digitChar (by omega)]

theorem Spells.isDigit {digits : List Char} {bytes : List UInt8} (h : Spells digits bytes) :
    ∀ c ∈ digits, Wordcode.isDigit 16 c = true := by
  induction bytes generalizing digits with
  | nil =>
    have hd : digits = [] := by simpa [Spells, encode] using h
    simp [hd]
  | cons b bytes ih =>
    have hb : b.toNat < 256 := b.toNat_lt
    obtain ⟨high, low, rest, rfl, hhigh, hlow, hrest⟩ := h.exists_cons
    simp only [List.mem_cons, forall_eq_or_imp]
    exact ⟨isDigit_of_digitValue? hhigh (by omega), isDigit_of_digitValue? hlow (by omega),
      ih hrest⟩

theorem Spells.length {digits : List Char} {bytes : List UInt8} (h : Spells digits bytes) :
    digits.length = 2 * bytes.length := by
  induction bytes generalizing digits with
  | nil => simpa [Spells, encode] using h
  | cons b bytes ih =>
    obtain ⟨high, low, rest, rfl, -, -, hrest⟩ := h.exists_cons
    simp [ih hrest]
    omega

theorem digit_ofNat {c : Char} {n : Nat} (h : digitValue? c = some n) (hn : n < 16)
    (index : Nat) : digit index (UInt8.ofNat c.toNat) = .ok (UInt8.ofNat n) := by
  have hlt := toNat_lt_of_isDigit (isDigit_of_digitValue? h hn)
  have hc : Char.ofNat (UInt8.ofNat c.toNat).toNat = c := by
    rw [UInt8.toNat_ofNat_of_lt' (Nat.lt_trans hlt (by decide)), Char.ofNat_toNat]
  rw [digit, hc, h]

theorem byte_of_halves (b : UInt8) :
    UInt8.ofNat (b.toNat / 16) * 16 + UInt8.ofNat (b.toNat % 16) = b := by
  have hb : b.toNat < 256 := b.toNat_lt
  apply UInt8.toNat_inj.mp
  simp
  omega

theorem Spells.decodePairs {digits : List Char} {bytes : List UInt8} (h : Spells digits bytes)
    (index : Nat) (done : List UInt8) :
    decodePairs index done (digits.map fun c => UInt8.ofNat c.toNat) =
      .ok (done.reverse ++ bytes) := by
  induction bytes generalizing digits index done with
  | nil =>
    have hd : digits = [] := by simpa [Spells, encode] using h
    simp [hd, Hex.decodePairs]
  | cons b bytes ih =>
    have hb : b.toNat < 256 := b.toNat_lt
    obtain ⟨high, low, rest, rfl, hhigh, hlow, hrest⟩ := h.exists_cons
    rw [List.map_cons, List.map_cons, Hex.decodePairs, digit_ofNat hhigh (by omega),
      digit_ofNat hlow (by omega)]
    simp only [bind, Except.bind, byte_of_halves]
    rw [ih hrest]
    simp

theorem decode_of_spells {digits : List Char} {bytes : List UInt8} (h : Spells digits bytes) :
    decode (String.ofList digits) = .ok bytes := by
  have hutf8 : (String.ofList digits).toUTF8.data.toList =
      digits.map fun c => UInt8.ofNat c.toNat :=
    utf8_ofList fun c hc => toNat_lt_of_isDigit (h.isDigit c hc)
  rw [decode, hutf8, List.length_map, h.length, if_neg (by omega), h.decodePairs]
  rfl

theorem dropMark_of_spells {digits : List Char} {bytes : List UInt8} (h : Spells digits bytes)
    {mark : List Char} (hm : mark = [] ∨ mark = ['0', 'x']) :
    dropMark (String.ofList (mark ++ digits)) = String.ofList digits := by
  obtain rfl | rfl := hm
  · rw [List.nil_append, dropMark]
    split
    · rename_i rest hd
      rw [String.toList_ofList] at hd
      have hx := h.isDigit 'x' (by simp [hd])
      exact absurd hx (by decide)
    · rfl
  · simp [dropMark]

end Hex

theorem isBlank_of_isDigit {c : Char} (h : isDigit 16 c = true) : isBlank c = false :=
  Token.isBlank_of_isWordChar (isWordChar_of_digit h)

theorem trim_of_blanks {front text back : List Char} (hf : ∀ c ∈ front, isBlank c = true)
    (ht : ∀ c ∈ text, isBlank c = false) (hb : ∀ c ∈ back, isBlank c = true) :
    trim (front ++ (text ++ back)) = text := by
  have hback : trimEnd (text ++ back) = text := by
    rw [trimEnd, List.reverse_append, List.dropWhile_append_of_pos (by simpa using hb)]
    exact trimEnd_eq_self ht
  rw [trim, List.dropWhile_append_of_pos hf]
  cases text with
  | nil =>
    rw [List.nil_append, List.dropWhile_eq_nil_iff.mpr hb]
    rfl
  | cons c text =>
    rw [List.cons_append, List.dropWhile_cons_of_neg (by simp [ht c (by simp)])]
    exact hback

/-! ## Tables -/

namespace Table

theorem fits_toJson {table : Table} (h : ∀ op ∈ table.entries.toList, op.IsWritable) :
    Json.Fits 6 table.toJson :=
  .list fun op hop => Opcode.fits_toJson (h op hop)

theorem ofJson_toJson {table : Table} (h : ∀ op ∈ table.entries.toList, op.IsWritable) :
    ofJson table.toJson = ofEntries table.entries.toList := by
  have hroom : Json.maxDepth - 2 = 121 + 4 := rfl
  have hlist : Json.list? (Opcode.ofJson? (121 + 4)) table.toJson = some table.entries.toList :=
    Json.list?_list fun op hop => Opcode.ofJson?_toJson (h op hop)
  rw [ofJson, hroom, hlist]

theorem read_write {table : Table} (h : ∀ op ∈ table.entries.toList, op.IsWritable) :
    Json.read table.write.toList = some table.toJson :=
  Json.read_pretty (fits_toJson h).plain

theorem exists_utf8_write (table : Table) : ∃ rest, utf8 table.write = 0x5B :: rest := by
  have hopen : utf8 "[" = [0x5B] := by decide +kernel
  obtain ⟨text, htext⟩ : ∃ text, table.write = "[" ++ text := by
    unfold write toJson Json.list Json.pretty
    cases table.entries.toList with
    | nil => exact ⟨"]", by simp [Json.prettyAt]⟩
    | cons op ops =>
      rw [List.map_cons, Json.prettyAt]
      · simp only [String.append_assoc]
        exact ⟨_, rfl⟩
      · simp
  exact ⟨utf8 text, by rw [htext, utf8_append, hopen]; rfl⟩

theorem ofBytes_of_cons {bytes : List UInt8} (h : ∃ rest, bytes = 0x5B :: rest) :
    ofBytes bytes = ofUtf8 bytes := by
  obtain ⟨rest, rfl⟩ := h
  have hjson : looksLikeJson (0x5B :: rest) = true := by
    simp [looksLikeJson, isAsciiSpace]
  rw [ofBytes, if_pos hjson]

theorem ofHex_of_spells {front mark digits back : List Char} {bytes : List UInt8}
    (hfront : ∀ c ∈ front, isBlank c = true) (hmark : mark = [] ∨ mark = ['0', 'x'])
    (hdigits : Hex.Spells digits bytes) (hback : ∀ c ∈ back, isBlank c = true) :
    ofHex (String.ofList (front ++ (mark ++ digits ++ back))) = ofBytes bytes := by
  have hsolid : ∀ c ∈ mark ++ digits, isBlank c = false := by
    intro c hc
    rw [List.mem_append] at hc
    obtain hc | hc := hc
    · obtain rfl | rfl := hmark
      · cases hc
      · simp only [List.mem_cons, List.not_mem_nil, or_false] at hc
        obtain rfl | rfl := hc <;> decide
    · exact isBlank_of_isDigit (hdigits.isDigit c hc)
  rw [ofHex, trimmed, String.toList_ofList, trim_of_blanks hfront hsolid hback,
    Hex.dropMark_of_spells hdigits hmark, Hex.decode_of_spells hdigits]

theorem ofJson_of_ofEntries {entries : List Opcode} {table : Table}
    (hnew : ofEntries entries = .ok table) (h : ∀ op ∈ entries, op.IsWritable) :
    Json.read table.write.toList = some table.toJson ∧ ofJson table.toJson = .ok table := by
  have he : table.entries.toList = entries := by
    rw [(ofEntries_ok hnew).2]
  rw [← he] at h hnew
  exact ⟨read_write h, (ofJson_toJson h).trans hnew⟩

end Table

/-! ## Archives -/

namespace Archive

def SameHash (hash hash' : String) : Prop :=
  (trim hash.toList).map Char.toLower = (trim hash'.toList).map Char.toLower

instance (hash hash' : String) : Decidable (SameHash hash hash') :=
  inferInstanceAs (Decidable (_ = _))

theorem key_eq_iff {hash hash' : String} : key hash = key hash' ↔ SameHash hash hash' := by
  rw [key, key, SameHash, String.ofList_inj]

/-- Something that is put into an archive. -/
inductive Insertion where
  | opcodes (hash : String) (bytes : List UInt8)
  | deployer (hash : String) (d : Deployer)

def insert (a : Archive) : Insertion → Archive
  | .opcodes hash bytes => a.insertOpcodes hash bytes
  | .deployer hash d => a.insertDeployer hash d

def after (a : Archive) (history : List Insertion) : Archive :=
  history.foldl insert a

/-- The last opcodes put in under the hash are these bytes. -/
def LastOpcodes (history : List Insertion) (hash : String) (bytes : List UInt8) : Prop :=
  ∃ before later hash', history = before ++ .opcodes hash' bytes :: later ∧
    SameHash hash' hash ∧
    ∀ other bytes', .opcodes other bytes' ∈ later → ¬ SameHash other hash

def LastDeployer (history : List Insertion) (hash : String) (d : Deployer) : Prop :=
  ∃ before later hash', history = before ++ .deployer hash' d :: later ∧
    SameHash hash' hash ∧
    ∀ other d', .deployer other d' ∈ later → ¬ SameHash other hash

/-- What is seen of an archive after a history is what one insertion shows, if those after it show
nothing. -/
theorem view_after {α : Type} (view : Archive → α) {i : Insertion} {v : α}
    (hi : ∀ a : Archive, view (a.insert i) = v) {later : List Insertion}
    (hl : ∀ j ∈ later, ∀ a : Archive, view (a.insert j) = view a) (a : Archive)
    (before : List Insertion) : view (a.after (before ++ i :: later)) = v := by
  have hlater : ∀ b : Archive, view (b.after later) = view b := by
    induction later with
    | nil => exact fun _ => rfl
    | cons j later ih =>
      intro b
      have hrest := ih (fun k hk => hl k (by simp [hk])) (b.insert j)
      exact hrest.trans (hl j (by simp) b)
  rw [after, List.foldl_append, List.foldl_cons]
  exact (hlater _).trans (hi _)

theorem opcodesOf_of_last {history : List Insertion} {hash : String} {bytes : List UInt8}
    (h : LastOpcodes history hash bytes) (a : Archive) :
    (a.after history).opcodesOf hash = .ok bytes := by
  obtain ⟨before, later, hash', rfl, hsame, hlater⟩ := h
  apply view_after fun a => a.opcodesOf hash
  · intro a
    have hk := key_eq_iff.mpr hsame
    simp [insert, insertOpcodes, opcodesOf, hk]
  · intro j hj a
    cases j with
    | deployer other d => rfl
    | opcodes other bytes' =>
      have hk : key other ≠ key hash := fun hk => hlater other bytes' hj (key_eq_iff.mp hk)
      simp [insert, insertOpcodes, opcodesOf, Std.TreeMap.getElem?_insert, hk]

theorem deployerOf_of_last {history : List Insertion} {hash : String} {d : Deployer}
    (h : LastDeployer history hash d) (a : Archive) :
    (a.after history).deployerOf hash = .ok d := by
  obtain ⟨before, later, hash', rfl, hsame, hlater⟩ := h
  apply view_after fun a => a.deployerOf hash
  · intro a
    have hk := key_eq_iff.mpr hsame
    simp [insert, insertDeployer, deployerOf, hk]
  · intro j hj a
    cases j with
    | opcodes other bytes => rfl
    | deployer other d' =>
      have hk : key other ≠ key hash := fun hk => hlater other d' hj (key_eq_iff.mp hk)
      simp [insert, insertDeployer, deployerOf, Std.TreeMap.getElem?_insert, hk]

theorem opcodesOf_congr (a : Archive) {hash hash' : String} {bytes : List UInt8}
    (hsame : SameHash hash' hash) (h : a.opcodesOf hash = .ok bytes) :
    a.opcodesOf hash' = .ok bytes := by
  have hk := key_eq_iff.mpr hsame
  unfold opcodesOf at h ⊢
  rw [hk]
  split at h
  · exact h
  · cases h

theorem table_of_opcodesOf {a : Archive} {hash : String} {bytes : List UInt8} {table : Table}
    (h : a.opcodesOf hash = .ok bytes) (ht : Table.ofBytes bytes = .ok table) :
    a.table hash = .ok table := by
  rw [Archive.table, h]
  dsimp only
  rw [ht]

end Archive

/-- A written table is loaded as it was: from its text; from the bytes of the text; from their
hexadecimal digits in either letter case, with or without a mark and with blanks around them; and
from an archive in which the bytes were the last ones put in under a hash, by the hash and through
a deployer that names it. -/
theorem Table.load_write {entries : List Opcode} {table : Table}
    (hjson : ∀ op ∈ entries, ∃ room v, Opcode.ofJson? room v = some op)
    (hnew : ofEntries entries = .ok table) :
    ofText table.write.toList = .ok table ∧
      ofBytes (utf8 table.write) = .ok table ∧
      (∀ front mark digits back : List Char, (∀ c ∈ front, isBlank c = true) →
        (mark = [] ∨ mark = ['0', 'x']) → Hex.Spells digits (utf8 table.write) →
        (∀ c ∈ back, isBlank c = true) →
        ofHex (String.ofList (front ++ (mark ++ digits ++ back))) = .ok table) ∧
      ∀ (a : Archive) (history : List Archive.Insertion) (hash : String),
        Archive.LastOpcodes history hash (utf8 table.write) →
        (a.after history).table hash = .ok table ∧
          ∀ (deployerHash : String) (d : Deployer),
            Archive.LastDeployer history deployerHash d → Archive.SameHash d.opcodesHash hash →
            (a.after history).deployerTable deployerHash = .ok table := by
  have hwritable : ∀ op ∈ entries, op.IsWritable := by
    intro op hop
    obtain ⟨room, v, hv⟩ := hjson op hop
    exact Opcode.isWritable_of_ofJson? hv
  obtain ⟨hread, hof⟩ := ofJson_of_ofEntries hnew hwritable
  have hbytes : ofBytes (utf8 table.write) = .ok table := by
    rw [ofBytes_of_cons table.exists_utf8_write, ofUtf8, readBytes_utf8, hread]
    exact hof
  refine ⟨?_, hbytes, ?_, ?_⟩
  · rw [ofText, hread]
    exact hof
  · intro front mark digits back hfront hmark hdigits hback
    rw [ofHex_of_spells hfront hmark hdigits hback]
    exact hbytes
  · intro a history hash hlast
    have hopcodes := Archive.opcodesOf_of_last hlast a
    refine ⟨Archive.table_of_opcodesOf hopcodes hbytes, ?_⟩
    intro deployerHash d hd hsame
    rw [Archive.deployerTable, Archive.deployerOf_of_last hd a]
    exact Archive.table_of_opcodesOf (Archive.opcodesOf_congr _ hsame hopcodes) hbytes

theorem Table.load_write_builtin :
    (∀ op ∈ Builtin.opcodes, ∃ room v, Opcode.ofJson? room v = some op) ∧
      ofEntries Builtin.opcodes = .ok builtin ∧
      ofHex (String.ofList (['\n'] ++ (['0', 'x'] ++
        (Hex.encode (utf8 builtin.write)).toList.map Char.toUpper ++ [' ']))) = .ok builtin ∧
      (Archive.after {} [.opcodes "0xAB" [], .opcodes "0xab" (utf8 builtin.write),
        .deployer "0xD1" ⟨"", "", "", [], "0xAb"⟩, .opcodes "0xcd" []]).deployerTable " 0xd1" =
          .ok builtin := by
  have hread : ∀ op ∈ Builtin.opcodes, Opcode.ofJson? 125 op.toJson = some op := by
    decide +kernel
  have hjson : ∀ op ∈ Builtin.opcodes, ∃ room v, Opcode.ofJson? room v = some op :=
    fun op hop => ⟨125, op.toJson, hread op hop⟩
  obtain ⟨-, -, hhex, harchive⟩ := load_write hjson ofEntries_builtin
  refine ⟨hjson, ofEntries_builtin, ?_, ?_⟩
  · exact hhex ['\n'] ['0', 'x'] _ [' '] (by simp; decide) (.inr rfl) (Hex.spells_toUpper _)
      (by simp; decide)
  · have hlast : Archive.LastOpcodes [.opcodes "0xAB" [], .opcodes "0xab" (utf8 builtin.write),
        .deployer "0xD1" ⟨"", "", "", [], "0xAb"⟩, .opcodes "0xcd" []] "0xaB"
        (utf8 builtin.write) :=
      ⟨[.opcodes "0xAB" []], _, "0xab", rfl, by decide +kernel, by simp; decide +kernel⟩
    exact (harchive {} _ "0xaB" hlast).2 _ _
      ⟨[.opcodes "0xAB" [], .opcodes "0xab" _], [.opcodes "0xcd" []], "0xD1", rfl,
        by decide +kernel, by simp⟩ (by decide +kernel)

end Wordcode
