import Wordcode.Proofs.Packing

namespace Wordcode.Field

/-- The reasons to refuse a field. -/
inductive IsRefused (f : Field) : Prop where
  | invalid {ranges : List ValidRange} (hv : f.valid = some ranges)
      (h : ∀ r ∈ ranges, f.value < r.min ∨ r.max < f.value)
  | tooLarge (hf : f.formula.isSome = true) (h : f.bits.maxValue < f.value)
  | failing {err : Formula.EvalError} (h : f.image = .error err)
  | outside {n : Int} (hn : f.image = .ok n) (h : n < 0 ∨ f.bits.maxValue < n)

theorem accepts_eq_false_iff {f : Field} :
    f.accepts = false ↔ ∃ ranges, f.valid = some ranges ∧
      ∀ r ∈ ranges, f.value < r.min ∨ r.max < f.value := by
  unfold accepts
  cases f.valid with
  | none => simp
  | some ranges =>
    simp only [ValidRange.contains, List.any_eq_false, Bool.and_eq_true, decide_eq_true_eq,
      Option.some.injEq, exists_eq_left']
    exact forall₂_congr fun r _ => by omega

theorem stored?_eq_none_iff {f : Field} : f.stored? = none ↔ f.IsRefused := by
  constructor
  · intro hnone
    by_contra hr
    have haccepts : f.accepts = true := by
      rw [← Bool.not_eq_false, accepts_eq_false_iff]
      rintro ⟨ranges, hv, h⟩
      exact hr (.invalid hv h)
    have hfits : f.formula.isSome = true → f.value ≤ f.bits.maxValue := by
      intro hf
      by_contra h
      exact hr (.tooLarge hf (by omega))
    cases hn : f.image with
    | error err => exact hr (.failing hn)
    | ok n =>
      have hbounds : ¬ (n < 0 ∨ f.bits.maxValue < n) := fun h => hr (.outside hn h)
      obtain ⟨m, rfl⟩ := Int.eq_ofNat_of_zero_le (a := n) (by omega)
      have hstored := stored?_eq_some_iff.mpr ⟨haccepts, hn, hfits, by omega⟩
      rw [hnone] at hstored
      cases hstored
  · intro hr
    by_contra hne
    obtain ⟨n, hn⟩ := Option.ne_none_iff_exists'.mp hne
    obtain ⟨haccepts, himage, hfits, hle⟩ := stored?_eq_some_iff.mp hn
    cases hr with
    | invalid hv h =>
      rw [accepts_eq_false_iff.mpr ⟨_, hv, h⟩] at haccepts
      cases haccepts
    | tooLarge hf h =>
      have := hfits hf
      omega
    | failing h =>
      rw [h] at himage
      cases himage
    | outside hm h =>
      rw [hm] at himage
      cases himage
      omega

theorem mem_rejected_iff {fields : List Field} {i : Nat} :
    i ∈ rejected fields ↔ ∃ f, fields[i]? = some f ∧ f.IsRefused := by
  simp only [mem_rejected, stored?_eq_none_iff]

theorem pairwise_rejected (fields : List Field) : (rejected fields).Pairwise (· < ·) := by
  have horder : fields.zipIdx.Pairwise fun a b => a.2 < b.2 := by
    rw [← List.pairwise_map, List.zipIdx_map_snd]
    exact List.pairwise_lt_range' 1
  refine List.Pairwise.filterMap _ ?_ horder
  rintro ⟨f, i⟩ ⟨g, j⟩ hlt i' hi j' hj
  obtain ⟨-, hi⟩ := Option.ite_none_right_eq_some.mp hi
  obtain ⟨-, hj⟩ := Option.ite_none_right_eq_some.mp hj
  cases hi
  cases hj
  exact hlt

theorem exists_has_of_testBit_union {fields : List Field} (hs : ∀ f ∈ fields, f.stored? ≠ none)
    {i : Nat} (h : (union fields).testBit i = true) : ∃ f ∈ fields, f.bits.Has i := by
  obtain ⟨f, hf, hbit⟩ := (testBit_union fields i).mp h
  obtain ⟨n, hn⟩ := Option.ne_none_iff_exists'.mp (hs f hf)
  exact ⟨f, hf, has_of_testBit_placed hn hbit⟩

theorem union_lt {fields : List Field} (hs : ∀ f ∈ fields, f.stored? ≠ none) :
    union fields < 2 ^ 16 := by
  apply Nat.lt_pow_two_of_testBit
  intro i hi
  rw [Bool.eq_false_iff]
  intro hbit
  obtain ⟨f, -, hhas⟩ := exists_has_of_testBit_union hs hbit
  have := f.bits.hi_lt
  have := hhas.2
  omega

/-- Packing is exact. Fields that share no bits are found in the operand with their numbers, the
bits of no field are zero, and the numbers together are below `2 ^ 16`. Any fields are refused just
when one of them is, and then the indices of those that are come in order. -/
theorem pack_fieldwise (fields : List Field) :
    (fields.Pairwise (fun f g => ∀ i, f.bits.Has i → ¬ g.bits.Has i) →
      ∀ operand, pack fields = .ok operand →
        (∀ f ∈ fields, f.image = .ok (f.bits.extract operand : Int)) ∧
        (∀ i, (∀ f ∈ fields, ¬ f.bits.Has i) → operand.toNat.testBit i = false) ∧
        operand.toNat = union fields) ∧
      ∀ indices, pack fields = .error indices ↔
        (∃ f ∈ fields, f.IsRefused) ∧ indices.Pairwise (· < ·) ∧
          ∀ i, i ∈ indices ↔ ∃ f, fields[i]? = some f ∧ f.IsRefused := by
  constructor
  · intro hd operand h
    obtain ⟨hs, rfl⟩ := pack_eq_ok_iff.mp h
    have hunion : (UInt16.ofNat (union fields)).toNat = union fields :=
      UInt16.toNat_ofNat_of_lt' (union_lt hs)
    refine ⟨?_, ?_, hunion⟩
    · intro f hf
      obtain ⟨n, hn⟩ := Option.ne_none_iff_exists'.mp (hs f hf)
      rw [extract_union (hd.imp BitRange.overlaps_eq_false_iff.mpr) hs hf hn]
      exact (stored?_eq_some_iff.mp hn).2.1
    · intro i hi
      rw [hunion, Bool.eq_false_iff]
      intro hbit
      obtain ⟨f, hf, hhas⟩ := exists_has_of_testBit_union hs hbit
      exact hi f hf hhas
  · intro indices
    have hsome : (∃ f ∈ fields, f.IsRefused) ↔ rejected fields ≠ [] := by
      rw [ne_eq, rejected_eq_nil_iff]
      simp [stored?_eq_none_iff]
    rw [pack_eq_error_iff, hsome]
    constructor
    · rintro ⟨rfl, hne⟩
      exact ⟨hne, pairwise_rejected fields, fun i => mem_rejected_iff⟩
    · rintro ⟨hne, horder, hmem⟩
      -- both lists are increasing and have the same members
      have he : indices = rejected fields := by
        apply horder.eq_of_mem_iff (pairwise_rejected fields)
        intro i
        rw [hmem, mem_rejected_iff]
      exact ⟨he, he ▸ hne⟩

theorem pack_fieldwise_gap :
    let minusOne : Formula := ⟨"arg - 1", .binary .sub .var (.number 1)⟩
    let f : Field := ⟨2, ⟨0, 3, by decide, by decide⟩, none, some [⟨2, 9, by decide⟩]⟩
    let g : Field := ⟨4, ⟨12, 15, by decide, by decide⟩, some minusOne, none⟩
    let fields := [g, ⟨9, ⟨5, 8, by decide, by decide⟩, none, none⟩, f]
    pack fields = .ok 0x3122 ∧ (∀ f ∈ fields, f.image = .ok (f.bits.extract 0x3122 : Int)) ∧
      (0x3122 : UInt16).toNat.testBit 4 = false ∧
      ∃ h ∈ [⟨16, g.bits, some minusOne, none⟩, g, ⟨1, f.bits, none, f.valid⟩], h.IsRefused := by
  intro minusOne f g fields
  have hpack : pack fields = .ok 0x3122 := by decide
  have hd : fields.Pairwise fun f g => f.bits.overlaps g.bits = false := by decide
  obtain ⟨himages, hzero, -⟩ :=
    (pack_fieldwise fields).1 (hd.imp BitRange.overlaps_eq_false_iff.mp) _ hpack
  refine ⟨hpack, himages, hzero 4 ?_, ?_⟩
  · simp [fields, f, g, BitRange.Has]
  · exact (((pack_fieldwise _).2 [0, 2]).mp (by decide)).1

end Wordcode.Field
