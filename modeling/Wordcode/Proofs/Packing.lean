import Mathlib
import Wordcode.Opcode.Basic

namespace Wordcode

theorem mapM_eq_some_iff {α β : Type} {f : α → Option β} {xs : List α} {ys : List β} :
    xs.mapM f = some ys ↔ List.Forall₂ (fun x y => f x = some y) xs ys := by
  induction xs generalizing ys with
  | nil =>
    cases ys with
    | nil => simp
    | cons y ys => simp
  | cons x xs ih =>
    simp only [List.mapM_cons, Option.bind_eq_bind, Option.bind_eq_some_iff, Option.pure_def,
      Option.some.injEq]
    constructor
    · rintro ⟨y, hy, rest, hr, rfl⟩
      exact .cons hy (ih.mp hr)
    · intro h
      cases h with
      | cons hy hr => exact ⟨_, hy, _, ih.mpr hr, rfl⟩

theorem forall₂_mem_right {α β : Type} {R : α → β → Prop} {xs : List α} {ys : List β}
    (h : List.Forall₂ R xs ys) {y : β} (hy : y ∈ ys) : ∃ x ∈ xs, R x y := by
  induction h with
  | nil => simp at hy
  | @cons x _ xs _ hxy _ ih =>
    rcases List.mem_cons.mp hy with rfl | hy
    · exact ⟨x, by simp, hxy⟩
    · obtain ⟨x', hx', hr⟩ := ih hy
      exact ⟨x', by simp [hx'], hr⟩

namespace BitRange

theorem width_le (r : BitRange) : r.width ≤ 16 := by
  have h := r.hi_lt
  simp only [width]
  omega

theorem le_maxValue_iff {r : BitRange} {n : Nat} : n ≤ r.maxValue ↔ n < 2 ^ r.width := by
  have hp := Nat.two_pow_pos r.width
  simp only [maxValue, Nat.pow_eq]
  omega

theorem extract_le (r : BitRange) (operand : UInt16) : r.extract operand ≤ 65535 := by
  have hb := operand.toNat_lt
  calc r.extract operand ≤ operand.toNat &&& r.mask := Nat.shiftRight_le _ _
    _ ≤ operand.toNat := Nat.and_le_left
    _ ≤ 65535 := by omega

def Has (r : BitRange) (i : Nat) : Prop :=
  r.lo ≤ i ∧ i ≤ r.hi

theorem testBit_mask (r : BitRange) (i : Nat) : r.mask.testBit i = true ↔ r.Has i := by
  have h := r.lo_le_hi
  simp only [mask, maxValue, width, Has, Nat.pow_eq, Nat.testBit_shiftLeft,
    Nat.testBit_two_pow_sub_one, Bool.and_eq_true, decide_eq_true_eq]
  omega

theorem overlaps_eq_false_iff {r s : BitRange} :
    r.overlaps s = false ↔ ∀ i, r.Has i → ¬ s.Has i := by
  have hbit : ∀ i, (r.mask &&& s.mask).testBit i = true ↔ r.Has i ∧ s.Has i := by
    intro i
    rw [Nat.testBit_and, Bool.and_eq_true, testBit_mask, testBit_mask]
  have hzero : r.overlaps s = false ↔ r.mask &&& s.mask = 0 := by simp [overlaps]
  rw [hzero]
  constructor
  · intro h i hr hs
    have hi := (hbit i).mpr ⟨hr, hs⟩
    rw [h, Nat.zero_testBit] at hi
    cases hi
  · intro h
    apply Nat.eq_of_testBit_eq
    intro i
    rw [Nat.zero_testBit, Bool.eq_false_iff, ne_eq, hbit]
    exact fun hi => h i hi.1 hi.2

theorem testBit_extract (r : BitRange) (operand : UInt16) (i : Nat) :
    (r.extract operand).testBit i = true ↔
      operand.toNat.testBit (r.lo + i) = true ∧ r.Has (r.lo + i) := by
  rw [extract, Nat.testBit_shiftRight, Nat.testBit_and, Bool.and_eq_true, testBit_mask]

end BitRange

namespace Field

def placed (f : Field) : Nat :=
  f.stored?.getD 0 <<< f.bits.lo

/-- The number that stands for the value: the value itself, or what the formula makes of it. -/
def image (f : Field) : Except Formula.EvalError Int :=
  match f.formula with
  | none => .ok f.value
  | some formula => formula.eval f.value

theorem image?_eq_some_iff {f : Field} {n : Int} : f.image? = some n ↔
    f.image = .ok n ∧ (f.formula.isSome = true → f.value ≤ f.bits.maxValue) := by
  unfold image? image
  cases f.formula with
  | none => simp
  | some formula =>
    by_cases hle : f.value ≤ f.bits.maxValue
    · cases he : formula.eval f.value <;> simp [hle, he, Except.toOption]
    · simp [hle]

theorem stored?_eq_some_iff {f : Field} {n : Nat} :
    f.stored? = some n ↔ f.accepts = true ∧ f.image = .ok (n : Int) ∧
      (f.formula.isSome = true → f.value ≤ f.bits.maxValue) ∧ n ≤ f.bits.maxValue := by
  rw [← and_assoc (a := f.image = .ok n), ← image?_eq_some_iff, stored?]
  cases hi : f.image? with
  | none => simp
  | some m =>
    by_cases ha : f.accepts = true
    · by_cases hm : 0 ≤ m ∧ m ≤ f.bits.maxValue
      · simp [ha, hm]
        omega
      · simp [ha, hm]
        omega
    · simp [ha]

theorem has_of_testBit {f : Field} {n i : Nat} (hn : f.stored? = some n)
    (hbit : n.testBit i = true) : f.bits.Has (f.bits.lo + i) := by
  obtain ⟨-, -, -, hle⟩ := stored?_eq_some_iff.mp hn
  have hlt := BitRange.le_maxValue_iff.mp hle
  have hb := f.bits.lo_le_hi
  have hw : i < f.bits.width := by
    by_contra hw
    have hle : 2 ^ f.bits.width ≤ 2 ^ i := Nat.pow_le_pow_right (by decide) (by omega)
    rw [Nat.testBit_lt_two_pow (Nat.lt_of_lt_of_le hlt hle)] at hbit
    cases hbit
  simp only [BitRange.width] at hw
  exact ⟨by omega, by omega⟩

theorem testBit_placed {f : Field} {n i : Nat} (hn : f.stored? = some n) :
    f.placed.testBit i = true ↔ f.bits.lo ≤ i ∧ n.testBit (i - f.bits.lo) = true := by
  rw [placed, hn, Option.getD_some, Nat.testBit_shiftLeft, Bool.and_eq_true, decide_eq_true_eq]

theorem has_of_testBit_placed {f : Field} {n i : Nat} (hn : f.stored? = some n)
    (hbit : f.placed.testBit i = true) : f.bits.Has i := by
  obtain ⟨hlo, hbit⟩ := (testBit_placed hn).mp hbit
  have hhas := has_of_testBit hn hbit
  rwa [Nat.add_sub_cancel' hlo] at hhas

theorem testBit_union (fields : List Field) (i : Nat) :
    (union fields).testBit i = true ↔ ∃ f ∈ fields, f.placed.testBit i = true := by
  have h : ∀ start : Nat,
      (fields.foldl (fun operand (f : Field) => operand ||| f.placed) start).testBit i = true ↔
        start.testBit i = true ∨ ∃ f ∈ fields, f.placed.testBit i = true := by
    induction fields with
    | nil => simp
    | cons f fields ih =>
      intro start
      rw [List.foldl_cons, ih, Nat.testBit_or, Bool.or_eq_true]
      simp [or_assoc]
  exact (h 0).trans (by simp)

theorem extract_union {fields : List Field}
    (hd : fields.Pairwise fun f g => f.bits.overlaps g.bits = false)
    (hs : ∀ f ∈ fields, f.stored? ≠ none) {f : Field} (hf : f ∈ fields) {n : Nat}
    (hn : f.stored? = some n) : f.bits.extract (UInt16.ofNat (union fields)) = n := by
  have hsym : Std.Symm fun f g : Field => f.bits.overlaps g.bits = false :=
    ⟨fun a b hab => by rwa [BitRange.overlaps, Nat.and_comm]⟩
  have h16 := f.bits.hi_lt
  apply Nat.eq_of_testBit_eq
  intro i
  rw [Bool.eq_iff_iff, BitRange.testBit_extract, UInt16.toNat_ofNat', Nat.testBit_mod_two_pow,
    Bool.and_eq_true, testBit_union, decide_eq_true_eq]
  constructor
  · rintro ⟨⟨-, g, hg, hbit⟩, hhas⟩
    -- a bit in the range of `f` comes from `f`, since no other field has bits there
    by_cases he : f = g
    · subst he
      simpa using ((testBit_placed hn).mp hbit).2
    · obtain ⟨m, hm⟩ := Option.ne_none_iff_exists'.mp (hs g hg)
      exact absurd (has_of_testBit_placed hm hbit)
        (BitRange.overlaps_eq_false_iff.mp (hd.forall hf hg he) _ hhas)
  · intro hbit
    have hhas := has_of_testBit hn hbit
    have hhi := hhas.2
    refine ⟨⟨by omega, f, hf, ?_⟩, hhas⟩
    rw [testBit_placed hn]
    simpa using hbit

theorem mem_rejected {fields : List Field} {i : Nat} :
    i ∈ rejected fields ↔ ∃ f, fields[i]? = some f ∧ f.stored? = none := by
  simp only [rejected, List.mem_filterMap, Prod.exists, List.mk_mem_zipIdx_iff_getElem?,
    Option.isNone_iff_eq_none, Option.ite_none_right_eq_some, Option.some.injEq]
  constructor
  · rintro ⟨f, i, hi, hf, rfl⟩
    exact ⟨f, hi, hf⟩
  · rintro ⟨f, hi, hf⟩
    exact ⟨f, i, hi, hf, rfl⟩

theorem rejected_eq_nil_iff {fields : List Field} :
    rejected fields = [] ↔ ∀ f ∈ fields, f.stored? ≠ none := by
  simp only [List.eq_nil_iff_forall_not_mem, mem_rejected, not_exists, not_and]
  constructor
  · intro h f hf
    obtain ⟨i, hi⟩ := List.mem_iff_getElem?.mp hf
    exact h i f hi
  · intro h i f hi
    exact h f (List.mem_of_getElem? hi)

theorem pack_eq_ok_iff {fields : List Field} {operand : UInt16} :
    pack fields = .ok operand ↔
      (∀ f ∈ fields, f.stored? ≠ none) ∧ operand = UInt16.ofNat (union fields) := by
  rw [← rejected_eq_nil_iff, pack]
  split
  · rename_i h
    simp [h, eq_comm]
  · rename_i h
    exact iff_of_false (by simp) fun hnil => h hnil.1

theorem pack_eq_error_iff {fields : List Field} {indices : List Nat} :
    pack fields = .error indices ↔ indices = rejected fields ∧ indices ≠ [] := by
  rw [pack]
  split
  · rename_i h
    simp [h]
  · rename_i h
    constructor
    · intro he
      cases he
      exact ⟨rfl, h⟩
    · rintro ⟨rfl, -⟩
      rfl

end Field

namespace OperandItem

theorem invert_le {item : OperandItem} {operand : UInt16} {a : Nat}
    (h : item.invert operand = some a) : a ≤ 65535 := by
  unfold invert Formula.invert at h
  split at h
  · simp only [Option.some.injEq] at h
    rw [← h]
    exact item.bits.extract_le operand
  · have hm := List.mem_of_find?_eq_some h
    rw [List.mem_range, Nat.pow_eq] at hm
    have hw : 2 ^ item.bits.width ≤ 2 ^ 16 := Nat.pow_le_pow_right (by decide) item.bits.width_le
    omega

theorem map_bits_fill (params : Nat) (items : List OperandItem) (args : List Nat) :
    (fill params items args).map (·.bits) = items.map (·.bits) := by
  induction items generalizing args with
  | nil => rfl
  | cons item items ih =>
    unfold fill
    split <;> simp [ih, field]

theorem length_fill (params : Nat) (items : List OperandItem) (args : List Nat) :
    (fill params items args).length = items.length := by
  simpa using congrArg List.length (map_bits_fill params items args)

/-- No two numbers that the item's bits could hold have the same image. -/
def IsInvertible (item : OperandItem) : Prop :=
  ∀ f, item.formula = some f → ∀ (a b : Nat) (n : Int), a < 2 ^ item.bits.width →
    b < 2 ^ item.bits.width → f.eval a = .ok n → f.eval b = .ok n → a = b

theorem isInvertible_of_formula_eq_none {item : OperandItem} (h : item.formula = none) :
    item.IsInvertible := by
  intro f hf
  rw [h] at hf
  cases hf

theorem fill_userItems (params : Nat) {items : List OperandItem} {args : List Nat}
    (h : args.length = (items.filter (!·.isInputs)).length) :
    List.Forall₂ (fun item a => item.field a ∈ fill params items args)
      (items.filter (!·.isInputs)) args := by
  induction items generalizing args with
  | nil =>
    cases args with
    | nil => exact .nil
    | cons a args => simp at h
  | cons item items ih =>
    by_cases hi : item.isInputs = true
    · rw [List.filter_cons_of_neg (by simp [hi])] at h ⊢
      refine (ih h).imp ?_
      intro other a hm
      simp [fill, hi, hm]
    · rw [List.filter_cons_of_pos (by simp [hi])] at h ⊢
      cases args with
      | nil => simp at h
      | cons a args =>
        refine .cons (by simp [fill, hi]) ((ih (by simpa using h)).imp ?_)
        intro other b hm
        simp [fill, hi, hm]

theorem pairwise_of_overlap? {items : List OperandItem} (h : overlap? items = none) :
    (items.map (·.bits)).Pairwise fun r s => r.overlaps s = false := by
  induction items with
  | nil => exact .nil
  | cons item items ih =>
    rw [overlap?] at h
    split at h
    · simp at h
    · rename_i hnone
      rw [List.map_cons, List.pairwise_cons]
      refine ⟨?_, ih h⟩
      simpa using hnone

end OperandItem

namespace Opcode

theorem fault?_eq_none_iff {op : Opcode} :
    op.fault? = none ↔ canName op.name = true ∧ (∀ word ∈ op.aliases, canName word = true) ∧
      op.operand.countP (·.isInputs) ≤ 1 ∧ op.width ≤ 16 ∧
      OperandItem.overlap? op.operand = none := by
  unfold fault?
  by_cases hname : canName op.name = true
  · cases hfind : op.aliases.find? (!canName ·) with
    | some word =>
      have hbad := List.find?_some hfind
      have hm := List.mem_of_find?_eq_some hfind
      simp only [hname, Bool.not_true, Bool.false_eq_true, if_false, reduceCtorEq, true_and,
        false_iff, not_and]
      intro hall
      rw [hall word hm] at hbad
      cases hbad
    | none =>
      have hall : ∀ word ∈ op.aliases, canName word = true := by simpa using hfind
      simp only [hname, Bool.not_true, Bool.false_eq_true, if_false, true_and]
      split
      · simp
        omega
      · split
        · simp
          omega
        · rw [Option.map_eq_none_iff]
          exact ⟨fun h => ⟨hall, by omega, by omega, h⟩, fun h => h.2.2.2⟩
  · simp [hname]

theorem packOperand_eq_error {op : Opcode} {args : List Nat} {params : Nat}
    {indices : List Nat} (h : op.packOperand args params = .error indices) :
    indices ≠ [] ∧ ∀ i ∈ indices, i < op.operand.length := by
  obtain ⟨rfl, hne⟩ := Field.pack_eq_error_iff.mp h
  refine ⟨hne, ?_⟩
  intro i hi
  obtain ⟨f, hf, -⟩ := Field.mem_rejected.mp hi
  rw [← OperandItem.length_fill params op.operand args]
  exact (List.getElem?_eq_some_iff.mp hf).1

theorem unpackOperand_eq_some_iff {op : Opcode} {operand : UInt16} {params : Nat}
    {args : List Nat} : op.unpackOperand operand params = some args ↔
      op.userItems.mapM (·.invert operand) = some args ∧
        op.packOperand args params = .ok operand := by
  simp only [unpackOperand, Option.bind_eq_bind, Option.bind_eq_some_iff]
  constructor
  · rintro ⟨found, hf, hp⟩
    split at hp
    · rename_i packed hpack
      obtain ⟨rfl, hfound⟩ := Option.ite_none_right_eq_some.mp hp
      cases hfound
      exact ⟨hf, hpack⟩
    · simp at hp
  · rintro ⟨hf, hp⟩
    exact ⟨args, hf, by simp [hp]⟩

theorem unpackOperand_eq_some {op : Opcode} {operand : UInt16} {params : Nat}
    {args : List Nat} (h : op.unpackOperand operand params = some args) :
    args.length = op.arity ∧ (∀ a ∈ args, a ≤ 65535) ∧
      op.packOperand args params = .ok operand := by
  obtain ⟨hf, hpack⟩ := unpackOperand_eq_some_iff.mp h
  rw [mapM_eq_some_iff] at hf
  refine ⟨hf.length_eq.symm, ?_, hpack⟩
  intro a ha
  obtain ⟨item, -, hinvert⟩ := forall₂_mem_right hf ha
  exact OperandItem.invert_le hinvert

def IsInvertible (op : Opcode) : Prop :=
  ∀ item ∈ op.userItems, item.IsInvertible

end Opcode

end Wordcode
