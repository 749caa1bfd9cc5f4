import Mathlib
import Wordcode.Instruction.Codec

namespace Wordcode

theorem halfOfBytes_halfBytes (v : UInt16) :
    halfOfBytes (UInt8.ofNat (v.toNat / 256)) (UInt8.ofNat (v.toNat % 256)) = v := by
  have hv := v.toNat_lt
  apply UInt16.toNat_inj.mp
  simp only [halfOfBytes, UInt8.toNat_ofNat', UInt16.toNat_ofNat']
  omega

theorem toNat_halfOfBytes (high low : UInt8) :
    (halfOfBytes high low).toNat = high.toNat * 256 + low.toNat := by
  have hh := high.toNat_lt
  have hl := low.toNat_lt
  simp only [halfOfBytes, UInt16.toNat_ofNat']
  omega

theorem halfBytes_halfOfBytes (high low : UInt8) :
    halfBytes (halfOfBytes high low) = [high, low] := by
  have hh := high.toNat_lt
  have hl := low.toNat_lt
  have hn := toNat_halfOfBytes high low
  have h₁ : UInt8.ofNat ((halfOfBytes high low).toNat / 256) = high := by
    apply UInt8.toNat_inj.mp
    rw [hn, UInt8.toNat_ofNat']
    omega
  have h₂ : UInt8.ofNat ((halfOfBytes high low).toNat % 256) = low := by
    apply UInt8.toNat_inj.mp
    rw [hn, UInt8.toNat_ofNat']
    omega
  rw [halfBytes, h₁, h₂]

namespace Instruction

theorem encode_cons (i : Instruction) (is : List Instruction) :
    encode (i :: is) = i.bytes ++ encode is :=
  List.flatMap_cons

theorem length_bytes (i : Instruction) : i.bytes.length = size :=
  rfl

theorem decodeInto_encode (done is : List Instruction) :
    decodeInto done (encode is) = done.reverse ++ is := by
  induction is generalizing done with
  | nil => simp [encode, decodeInto]
  | cons i is ih =>
    rw [encode_cons]
    simp only [bytes, halfBytes, List.cons_append, List.nil_append, decodeInto,
      halfOfBytes_halfBytes]
    rw [ih]
    simp

theorem length_encode (is : List Instruction) : (encode is).length = size * is.length := by
  induction is with
  | nil => rfl
  | cons i is ih =>
    rw [encode_cons, List.length_append, length_bytes, ih, List.length_cons, Nat.mul_succ,
      Nat.add_comm]

theorem decode_encode (is : List Instruction) : decode (encode is) = is := by
  simp [decode, decodeInto_encode]

theorem encode_decodeInto (done : List Instruction) (buffer : List UInt8)
    (h : buffer.length % size = 0) :
    encode (decodeInto done buffer) = encode done.reverse ++ buffer := by
  fun_induction decodeInto done buffer with
  | case1 done a b d e rest ih =>
    have hr : rest.length % size = 0 := by
      simp only [List.length_cons, size] at h ⊢
      omega
    rw [ih hr]
    simp [encode, bytes, halfBytes_halfOfBytes]
  | case2 buffer done hn =>
    cases buffer with
    | nil => simp
    | cons a t₁ =>
      cases t₁ with
      | nil => simp [size] at h
      | cons b t₂ =>
        cases t₂ with
        | nil => simp [size] at h
        | cons d t₃ =>
          cases t₃ with
          | nil => simp [size] at h
          | cons e rest => exact (hn a b d e rest rfl).elim

theorem encode_decode {buffer : List UInt8} (h : buffer.length % size = 0) :
    encode (decode buffer) = buffer := by
  rw [decode, encode_decodeInto [] buffer h]
  simp [encode]

end Instruction

end Wordcode
