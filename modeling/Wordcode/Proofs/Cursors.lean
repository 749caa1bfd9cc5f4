import Wordcode.Proofs.Codec
import Wordcode.Proofs.Emission

namespace Wordcode

namespace Instruction

/-- The word stands in a buffer at an offset, with the higher byte of each half first. -/
def StandsAt (buffer : List UInt8) (offset : Nat) (i : Instruction) : Prop :=
  ∃ a b d e, (buffer.drop offset).take 4 = [a, b, d, e] ∧
    i.opcode.toNat = a.toNat * 256 + b.toNat ∧ i.operand.toNat = d.toNat * 256 + e.toNat

theorem drop_encode (is : List Instruction) (k : Nat) :
    (encode is).drop (size * k) = encode (is.drop k) := by
  induction is generalizing k with
  | nil => simp [encode]
  | cons i is ih =>
    cases k with
    | zero => rfl
    | succ k =>
      rw [encode_cons, Nat.mul_succ, Nat.add_comm, ← List.drop_drop, ← length_bytes i,
        List.drop_left, length_bytes, ih, List.drop_succ_cons]

end Instruction

namespace Cursor

open Instruction

def after (c : Cursor) (k : Nat) : Cursor :=
  (fun c => c.next.2)^[k] c

/-- Calls for the next word give these words one after the other, and then nothing. -/
def Gives (c : Cursor) (words : List Instruction) : Prop :=
  ∀ k, (c.after k).next.1 = words[k]?.map Except.ok

theorem after_succ (c : Cursor) (k : Nat) : c.after (k + 1) = (c.after k).next.2 :=
  Function.iterate_succ_apply' _ k c

variable {c : Cursor}

theorem next_of_rest {a b d e : UInt8} {rest : List UInt8} (h : c.rest = a :: b :: d :: e :: rest) :
    c.next = (some (.ok ⟨halfOfBytes a b, halfOfBytes d e⟩), ⟨c.position + size, rest⟩) := by
  simp [next, next?, more, word, h]

theorem next_of_bytes {i : Instruction} {rest : List UInt8} (h : c.rest = i.bytes ++ rest) :
    c.next = (some (.ok i), ⟨c.position + size, rest⟩) := by
  rw [next_of_rest h, halfOfBytes_halfBytes, halfOfBytes_halfBytes]
  rfl

theorem next_of_size_le (h : size ≤ c.rest.length) :
    ∃ i, c.next = (some (.ok i), ⟨c.position + size, c.rest.drop size⟩) ∧ i.StandsAt c.rest 0 := by
  rcases hr : c.rest with _ | ⟨a, _ | ⟨b, _ | ⟨d, _ | ⟨e, rest⟩⟩⟩⟩
  case cons.cons.cons.cons =>
    exact ⟨_, next_of_rest hr, a, b, d, e, rfl, toNat_halfOfBytes a b, toNat_halfOfBytes d e⟩
  all_goals simp [hr, size] at h

theorem next_of_lt_size (h : c.rest.length < size) :
    c.next =
      (if c.rest.length = 0 then none else some (.error (.unexpectedEnd c.position)), c) := by
  rcases hr : c.rest with _ | ⟨a, _ | ⟨b, _ | ⟨d, _ | ⟨e, rest⟩⟩⟩⟩
  case cons.cons.cons.cons =>
    simp only [hr, List.length_cons, size] at h
    omega
  all_goals simp [next, next?, more, word, hr]

theorem after_eq (c : Cursor) (k : Nat) :
    c.after k = ⟨c.position + size * min k (c.rest.length / size),
      c.rest.drop (size * min k (c.rest.length / size))⟩ := by
  induction k with
  | zero => simp [after]
  | succ k ih =>
    rw [after_succ]
    have hdiv := Nat.div_add_mod c.rest.length size
    have hmod := Nat.mod_lt c.rest.length (show 0 < size by decide)
    by_cases hk : k < c.rest.length / size
    · rw [Nat.min_eq_left (by omega)] at ih ⊢
      have hmul : size * (k + 1) ≤ size * (c.rest.length / size) := Nat.mul_le_mul_left size hk
      rw [Nat.mul_succ] at hmul ⊢
      obtain ⟨i, hi, -⟩ := next_of_size_le (c := c.after k)
        (by rw [ih, List.length_drop]; omega)
      rw [hi, ih, List.drop_drop, Nat.add_assoc]
    · rw [Nat.min_eq_right (by omega)] at ih ⊢
      rw [next_of_lt_size (by rw [ih, List.length_drop]; omega), ih]

theorem gives_encode (is : List Instruction) : (start (encode is)).Gives is := by
  have hlen : (encode is).length / size = is.length := by
    rw [length_encode]
    exact Nat.mul_div_cancel_left _ (by decide)
  intro k
  rw [after_eq]
  simp only [start, hlen]
  by_cases hk : k < is.length
  · have hdrop : (encode is).drop (size * k) = is[k].bytes ++ encode (is.drop (k + 1)) := by
      rw [drop_encode, List.drop_eq_getElem_cons hk, encode_cons]
    rw [Nat.min_eq_left hk.le, next_of_bytes hdrop, List.getElem?_eq_getElem hk]
    rfl
  · have hdrop : (encode is).drop (size * is.length) = [] := by
      rw [← length_encode, List.drop_length]
    rw [Nat.min_eq_right (by omega), hdrop, List.getElem?_eq_none (by omega)]
    rfl

theorem next_of_lt_div (buffer : List UInt8) {k : Nat} (h : k < buffer.length / size) :
    ∃ i, ((start buffer).after k).next.1 = some (.ok i) ∧ i.StandsAt buffer (size * k) := by
  have hmul : size * (k + 1) ≤ size * (buffer.length / size) := Nat.mul_le_mul_left size h
  have hdiv := Nat.mul_div_le buffer.length size
  rw [Nat.mul_succ] at hmul
  rw [after_eq]
  simp only [start, Nat.min_eq_left h.le]
  obtain ⟨i, hi, hstands⟩ := next_of_size_le (c := ⟨0 + size * k, buffer.drop (size * k)⟩)
    (by rw [List.length_drop]; omega)
  rw [StandsAt, List.drop_zero] at hstands
  exact ⟨i, by rw [hi], hstands⟩

theorem next_of_div_le (buffer : List UInt8) {k : Nat} (h : buffer.length / size ≤ k) :
    ((start buffer).after k).position = size * (buffer.length / size) ∧
    ((start buffer).after k).next =
      (if buffer.length % size = 0 then none
        else some (.error (.unexpectedEnd (size * (buffer.length / size)))),
        (start buffer).after k) := by
  have hdiv := Nat.div_add_mod buffer.length size
  have hmod := Nat.mod_lt buffer.length (show 0 < size by decide)
  have hrest : (buffer.drop (size * (buffer.length / size))).length = buffer.length % size := by
    rw [List.length_drop]
    omega
  rw [after_eq]
  simp only [start, Nat.min_eq_right h, Nat.zero_add]
  refine ⟨trivial, ?_⟩
  rw [next_of_lt_size (by rw [hrest]; exact hmod)]
  simp only [hrest]

end Cursor

namespace Emission

open Instruction

def isWord : Emission → Bool
  | .half _ => false
  | .word _ => true
  | .memory _ _ _ => true

/-- The word that an emission stands for. A memory read is told by its operand. -/
inductive Writes : Emission → Instruction → Prop
  | word (i : Instruction) : Writes (.word i) i
  | memory {i : Instruction} {region : Region} {index : Nat} :
      index ≤ 32767 → Region.ofOperand i.operand = (region, index) →
      Writes (.memory i.opcode region index) i

def emitAll (buffer : List UInt8) : List Emission → List Emission × List UInt8
  | [] => ([], buffer)
  | e :: es =>
    let rest := emitAll (e.emit buffer).2 es
    (if (e.emit buffer).1 then e :: rest.1 else rest.1, rest.2)

theorem emit_cases (e : Emission) (h : e.isWord = true) :
    (∃ i, Writes e i ∧ ∀ buffer, e.emit buffer = (true, buffer ++ i.bytes)) ∨
    (∃ opcode region index, e = .memory opcode region index ∧ 32767 < index ∧
      ∀ buffer, e.emit buffer = (false, buffer)) := by
  cases e with
  | half v => cases h
  | word i => exact .inl ⟨i, .word i, fun _ => rfl⟩
  | memory opcode region index =>
    by_cases hi : index ≤ maxIndex
    · obtain ⟨w, hw⟩ := memory?_of_le opcode region hi
      obtain ⟨rfl, hregion⟩ := memory?_eq_some hw
      refine .inl ⟨w, .memory hi hregion, fun buffer => ?_⟩
      simp [emit, bytes?, hw]
    · refine .inr ⟨opcode, region, index, rfl, Nat.lt_of_not_le hi, fun buffer => ?_⟩
      simp [emit, bytes?, memory?, Region.operand?, hi]

theorem emit_eq_true_iff {e : Emission} (h : e.isWord = true) (buffer : List UInt8) :
    (e.emit buffer).1 = true ↔
      ∀ opcode region index, e = .memory opcode region index → index ≤ 32767 := by
  obtain ⟨i, hw, he⟩ | ⟨opcode, region, index, rfl, hi, he⟩ := e.emit_cases h
  · rw [he]
    refine iff_of_true rfl ?_
    rintro opcode region index rfl
    cases hw with
    | memory hi _ => exact hi
  · rw [he]
    refine iff_of_false Bool.false_ne_true fun hall => ?_
    exact absurd (hall opcode region index rfl) (Nat.not_le_of_lt hi)

theorem emit_of_eq_false {e : Emission} {buffer : List UInt8} (h : (e.emit buffer).1 = false) :
    (e.emit buffer).2 = buffer := by
  unfold emit at h ⊢
  split at h
  · cases h
  · rfl

theorem emitAll_eq {es : List Emission} (h : ∀ e ∈ es, e.isWord = true) (buffer : List UInt8) :
    ∃ words, List.Forall₂ Writes (emitAll buffer es).1 words ∧
      (emitAll buffer es).2 = buffer ++ encode words := by
  induction es generalizing buffer with
  | nil => exact ⟨[], .nil, by simp [emitAll, encode]⟩
  | cons e es ih =>
    rw [List.forall_mem_cons] at h
    obtain ⟨i, hw, he⟩ | ⟨-, -, -, -, -, he⟩ := e.emit_cases h.1
    · obtain ⟨words, hwords, hbytes⟩ := ih h.2 (buffer ++ i.bytes)
      refine ⟨i :: words, ?_, ?_⟩
      · simp only [emitAll, he, if_true]
        exact .cons hw hwords
      · simp only [emitAll, he, hbytes, encode_cons, List.append_assoc]
    · obtain ⟨words, hwords, hbytes⟩ := ih h.2 buffer
      refine ⟨words, ?_, ?_⟩
      · simp only [emitAll, he]
        exact hwords
      · simp only [emitAll, he]
        exact hbytes

theorem emitAll_words (buffer : List UInt8) (is : List Instruction) :
    emitAll buffer (is.map .word) = (is.map .word, buffer ++ encode is) := by
  induction is generalizing buffer with
  | nil => simp [emitAll, encode]
  | cons i is ih =>
    have he : (Emission.word i).emit buffer = (true, buffer ++ i.bytes) := rfl
    rw [List.map_cons, emitAll, he]
    simp only [ih, if_true, encode_cons, List.append_assoc]

/-- What is written as words is read as these words, and what is read as words is written as these
bytes. Calls for the next word go through a buffer word by word, and behind the last whole word
they give nothing, or an error if bytes are left, and stay where they are. -/
theorem gives_emitAll (es : List Emission) (h : ∀ e ∈ es, e.isWord = true)
    (buffer : List UInt8) :
    (∃ c words, Cursor.aligned (emitAll [] es).2 = .ok c ∧ c.Gives words ∧
      List.Forall₂ Writes (emitAll [] es).1 words) ∧
    (∀ e ∈ es,
      ((e.emit buffer).1 = true ↔
        ∀ opcode region index, e = .memory opcode region index → index ≤ 32767) ∧
      ((e.emit buffer).1 = false → (e.emit buffer).2 = buffer)) ∧
    (buffer.length % 4 = 0 → ∃ c words, Cursor.aligned buffer = .ok c ∧ c.Gives words ∧
      emitAll [] (words.map .word) = (words.map .word, buffer)) ∧
    (∀ k, k < buffer.length / 4 → ∃ i,
      ((Cursor.start buffer).after k).next.1 = some (.ok i) ∧ i.StandsAt buffer (4 * k)) ∧
    (∀ k, buffer.length / 4 ≤ k →
      ((Cursor.start buffer).after k).position = 4 * (buffer.length / 4) ∧
      ((Cursor.start buffer).after k).next =
        (if buffer.length % 4 = 0 then none
          else some (.error (.unexpectedEnd (4 * (buffer.length / 4)))),
          (Cursor.start buffer).after k)) ∧
    ((∃ err, Cursor.aligned buffer = .error err) ↔ buffer.length % 4 ≠ 0) := by
  refine ⟨?_, ?_, ?_, fun k hk => Cursor.next_of_lt_div buffer hk,
    fun k hk => Cursor.next_of_div_le buffer hk, ?_⟩
  · obtain ⟨words, hwords, hbytes⟩ := emitAll_eq h []
    rw [List.nil_append] at hbytes
    have hlen : (encode words).length % size = 0 := by
      rw [length_encode, Nat.mul_mod_right]
    refine ⟨_, words, ?_, Cursor.gives_encode words, hwords⟩
    rw [hbytes, Cursor.aligned, if_pos hlen]
  · intro e he
    exact ⟨emit_eq_true_iff (h e he) buffer, emit_of_eq_false⟩
  · intro ha
    have hencode : encode (decode buffer) = buffer := encode_decode ha
    have hgives := Cursor.gives_encode (decode buffer)
    rw [hencode] at hgives
    refine ⟨Cursor.start buffer, decode buffer, ?_, hgives, ?_⟩
    · rw [Cursor.aligned]
      exact if_pos ha
    · rw [emitAll_words, List.nil_append, hencode]
  · have hsize : size = 4 := rfl
    rw [Cursor.aligned, hsize]
    by_cases ha : buffer.length % 4 = 0
    · simp [ha]
    · simp [ha]

theorem gives_emitAll_refused :
    let es : List Emission :=
      [.word ⟨0x0102, 0xFFFF⟩, .memory 7 .stack 32768, .memory 7 .constant 32767]
    let c := (Cursor.start [0, 1, 2, 3, 4]).after 3
    (∀ e ∈ es, e.isWord = true) ∧
    (emitAll [] es).2 = [1, 2, 255, 255, 0, 7, 255, 255] ∧
    (∃ c words, Cursor.aligned (emitAll [] es).2 = .ok c ∧ c.Gives words ∧
      List.Forall₂ Writes [.word ⟨0x0102, 0xFFFF⟩, .memory 7 .constant 32767] words) ∧
    c.next = (some (.error (.unexpectedEnd 4)), c) := by
  intro es c
  have hes : ∀ e ∈ es, e.isWord = true := by decide
  obtain ⟨⟨c', words, ha, hg, hw⟩, -, -, -, hend, -⟩ := gives_emitAll es hes [0, 1, 2, 3, 4]
  have hkept : (emitAll [] es).1 = [.word ⟨0x0102, 0xFFFF⟩, .memory 7 .constant 32767] := by decide
  rw [hkept] at hw
  exact ⟨hes, by decide, ⟨c', words, ha, hg, hw⟩, (hend 3 (by decide)).2⟩

end Emission

end Wordcode
