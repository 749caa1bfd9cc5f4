import Wordcode.Proofs.SourceMap

namespace Wordcode

/-- The range is one of whole characters of a text, and its bytes are those of the given ones. -/
structure ByteRange.Selects (r : ByteRange) (text chars : List Char) : Prop where
  ordered : r.start ≤ r.stop
  within : r.stop ≤ (String.ofList text).utf8ByteSize
  start : String.Pos.Raw.IsValid (String.ofList text) ⟨r.start⟩
  stop : String.Pos.Raw.IsValid (String.ofList text) ⟨r.stop⟩
  bytes : (String.ofList text).toUTF8.extract r.start r.stop = (String.ofList chars).toUTF8

theorem utf8Length_eq (cs : List Char) : utf8Length cs = (String.ofList cs).utf8ByteSize := by
  have hfrom : ∀ n, cs.foldl (fun n c => n + c.utf8Size) n =
      n + (String.ofList cs).utf8ByteSize := by
    induction cs with
    | nil => simp
    | cons c cs ih =>
      intro n
      have hsplit : String.ofList (c :: cs) = String.singleton c ++ String.ofList cs := by
        rw [String.singleton_eq_ofList, ← String.ofList_append]
        rfl
      rw [List.foldl_cons, ih, hsplit, String.utf8ByteSize_append, String.utf8ByteSize_singleton,
        Nat.add_assoc]
  rw [utf8Length, hfrom, Nat.zero_add]

theorem utf8Length_pos {cs : List Char} (h : cs ≠ []) : 0 < utf8Length cs := by
  rw [utf8Length_eq, Nat.pos_iff_ne_zero, ne_eq, String.utf8ByteSize_eq_zero_iff]
  simpa using h

theorem utf8Length_append (cs ds : List Char) :
    utf8Length (cs ++ ds) = utf8Length cs + utf8Length ds := by
  rw [utf8Length_eq, utf8Length_eq, utf8Length_eq, String.ofList_append, String.utf8ByteSize_append]

theorem utf8Length_take_le (text : List Char) (i : Nat) :
    utf8Length (text.take i) ≤ utf8Length text := by
  conv_rhs => rw [← List.take_append_drop i text, utf8Length_append]
  exact Nat.le_add_right _ _

theorem utf8Length_take_mono (text : List Char) {i j : Nat} (h : i ≤ j) :
    utf8Length (text.take i) ≤ utf8Length (text.take j) := by
  rw [← Nat.min_eq_left h, ← List.take_take]
  exact utf8Length_take_le _ _

theorem size_toUTF8 (cs : List Char) : (String.ofList cs).toUTF8.size = utf8Length cs := by
  rw [utf8Length_eq]
  rfl

theorem extract_toUTF8 (before chars behind : List Char) :
    (String.ofList (before ++ (chars ++ behind))).toUTF8.extract (utf8Length before)
      (utf8Length (before ++ chars)) = (String.ofList chars).toUTF8 := by
  rw [utf8Length_append, ← size_toUTF8 before, ← size_toUTF8 chars]
  simp only [String.toUTF8_eq_toByteArray, String.toByteArray_ofList, List.utf8Encode_append]
  rw [← Nat.add_zero before.utf8Encode.size, Nat.add_assoc, Nat.zero_add,
    ByteArray.extract_append_size_add]
  exact ByteArray.extract_append_eq_left rfl

namespace ByteRange

variable {text : List Char} {i j : Nat}

theorem selects_take (h : i ≤ j) :
    Selects ⟨utf8Length (text.take i), utf8Length (text.take j)⟩ text ((text.take j).drop i) := by
  have htake : text.take j = text.take i ++ (text.take j).drop i := by
    conv_lhs => rw [← List.take_append_drop i (text.take j), List.take_take, Nat.min_eq_left h]
  have hsplit : text = text.take i ++ ((text.take j).drop i ++ text.drop j) := by
    rw [← List.append_assoc, ← htake, List.take_append_drop]
  have hvalid : ∀ k, String.Pos.Raw.IsValid (String.ofList text) ⟨utf8Length (text.take k)⟩ := by
    intro k
    rw [String.Pos.Raw.isValid_ofList]
    exact ⟨k, utf8Length_eq _⟩
  refine ⟨utf8Length_take_mono text h, ?_, hvalid i, hvalid j, ?_⟩
  · rw [← utf8Length_eq]
    exact utf8Length_take_le text j
  · have hbytes := extract_toUTF8 (text.take i) ((text.take j).drop i) (text.drop j)
    rwa [← hsplit, ← htake] at hbytes

theorem Selects.stop_eq {r : ByteRange} {chars : List Char} (h : r.Selects text chars) :
    r.stop = r.start + utf8Length chars := by
  have hsize := congrArg ByteArray.size h.bytes
  have hle := h.within
  rw [← utf8Length_eq] at hle
  rw [ByteArray.size_extract, size_toUTF8, size_toUTF8, Nat.min_eq_left hle] at hsize
  have := h.ordered
  omega

end ByteRange

theorem byteRange_eq (text : List Char) (p : Position) :
    byteRange text p =
      ⟨utf8Length (text.take p.first), utf8Length (text.take (max p.first (p.last + 1)))⟩ := by
  rw [byteRange]
  by_cases h : p.first ≤ p.last + 1
  · rw [Nat.max_eq_right h, Nat.max_eq_right (utf8Length_take_mono text h)]
  · have hle : p.last + 1 ≤ p.first := by omega
    rw [Nat.max_eq_left hle, Nat.max_eq_left (utf8Length_take_mono text hle)]

theorem Position.chars_eq (p : Position) (text : List Char) :
    p.chars text = (text.take (max p.first (p.last + 1))).drop p.first := by
  rw [chars, List.drop_take, Nat.sub_eq_max_sub, Nat.max_comm]

theorem Position.chars_eq_clamped (p : Position) (text : List Char) :
    p.chars text = (text.take (min (p.last + 1) text.length)).drop (min p.first text.length) := by
  rw [List.drop_take, ← List.drop_eq_drop_min, chars]
  by_cases h : p.first ≤ text.length
  · rw [Nat.min_eq_left h, ← Nat.sub_min_sub_right, ← List.length_drop, ← List.take_eq_take_min]
  · rw [List.drop_eq_nil_of_le (by omega), List.take_nil, List.take_nil]

theorem Position.Within.length_chars {p : Position} {text : List Char}
    (h : p.Within 0 text.length) : (p.chars text).length = p.last + 1 - p.first := by
  have hlt := h.lt
  rw [chars, List.length_take, List.length_drop]
  omega

theorem byteRange_selects_chars (text : List Char) (p : Position) :
    (byteRange text p).Selects text (p.chars text) := by
  rw [byteRange_eq, p.chars_eq]
  exact ByteRange.selects_take (Nat.le_max_left _ _)

/-- Over any text the range of a position has the bytes of the characters from the first to the
last one, as far as there are any. The range of a problem is never empty. -/
theorem byteRange_selects (text : List Char) :
    (∀ p : Position,
      (byteRange text p).Selects text
        ((text.take (min (p.last + 1) text.length)).drop (min p.first text.length)) ∧
      (p.last < p.first → (byteRange text p).start = (byteRange text p).stop)) ∧
    ∀ table, ∀ q ∈ (Document.read table text).problems,
      (byteRange text q.position).start < (byteRange text q.position).stop ∧
      (byteRange text q.position).Selects text (q.position.chars text) ∧
      (q.position.chars text).length = q.position.last + 1 - q.position.first := by
  refine ⟨fun p => ⟨?_, fun hlt => ?_⟩, fun table q hq => ?_⟩
  · rw [← p.chars_eq_clamped]
    exact byteRange_selects_chars text p
  · rw [byteRange_eq, Nat.max_eq_left hlt]
  · have hwithin := Document.problems_within table text q hq
    have hselects := byteRange_selects_chars text q.position
    have hlen := hwithin.length_chars
    refine ⟨?_, hselects, hlen⟩
    rw [hselects.stop_eq]
    have hle := hwithin.le
    have hpos : 0 < utf8Length (q.position.chars text) :=
      utf8Length_pos (List.ne_nil_of_length_pos (by omega))
    omega

theorem byteRange_selects_accented :
    let text := "/* ü */ é☃: 1;".toList
    let r := byteRange text ⟨8, 9⟩
    (∃ q ∈ (Document.read Table.builtin text).problems, q.position = ⟨8, 9⟩) ∧
      r = ⟨9, 14⟩ ∧ r.start < r.stop ∧ r.Selects text ['é', '☃'] := by
  intro text r
  have hp : (Document.read Table.builtin text).problems.map (·.position) = [⟨8, 9⟩] := by
    decide +kernel
  have hm : (⟨8, 9⟩ : Position) ∈ (Document.read Table.builtin text).problems.map (·.position) := by
    rw [hp]
    exact List.mem_singleton.mpr rfl
  obtain ⟨q, hq, hposition⟩ := List.mem_map.mp hm
  obtain ⟨hlt, hselects, -⟩ := (byteRange_selects text).2 Table.builtin q hq
  have hchars : (⟨8, 9⟩ : Position).chars text = ['é', '☃'] := by decide
  rw [hposition] at hlt hselects
  rw [hchars] at hselects
  exact ⟨⟨q, hq, hposition⟩, by decide, hlt, hselects⟩

end Wordcode
