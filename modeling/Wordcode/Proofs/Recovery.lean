import Wordcode.Proofs.Tables

namespace Wordcode

theorem forall₂_zipWith_iff {α β γ : Type} {R : α → γ → Prop} {f : α → β → γ} {xs : List α}
    {ys : List β} (h : ys.length = xs.length) :
    List.Forall₂ R xs (List.zipWith f xs ys) ↔ List.Forall₂ (fun x y => R x (f x y)) xs ys := by
  induction xs generalizing ys with
  | nil => simp [List.length_eq_zero_iff.mp h]
  | cons x xs ih =>
    cases ys with
    | nil => simp at h
    | cons y ys => simp [ih (by simpa using h)]

theorem zipWith_eq_right {α β : Type} {f : α → β → β} {xs : List α} {ys : List β}
    (h : List.Forall₂ (fun x y => f x y = y) xs ys) : List.zipWith f xs ys = ys := by
  induction h with
  | nil => rfl
  | cons hxy _ ih => rw [List.zipWith_cons_cons, hxy, ih]

namespace Field

/-- What a field puts into an operand, and where. -/
def content (f : Field) : Option Nat × BitRange :=
  (f.stored?, f.bits)

theorem pack_eq_ok_congr {fields fields' : List Field}
    (h : fields.map content = fields'.map content) {operand : UInt16} :
    pack fields = .ok operand ↔ pack fields' = .ok operand := by
  have hstored : ∀ fs : List Field,
      (∀ f ∈ fs, f.stored? ≠ none) ↔ ∀ c ∈ fs.map content, c.1 ≠ none := by
    simp [content]
  have hunion : ∀ fs : List Field, union fs =
      (fs.map content).foldl (fun operand c => operand ||| c.1.getD 0 <<< c.2.lo) 0 := by
    intro fs
    rw [List.foldl_map]
    rfl
  rw [pack_eq_ok_iff, pack_eq_ok_iff, hstored, hstored, hunion, hunion, h]

end Field

namespace OperandItem

def image (item : OperandItem) (a : Nat) : Except Formula.EvalError Int :=
  (item.field a).image

/-- The least value with the image of `a`. -/
def least (item : OperandItem) (a : Nat) : Nat :=
  Nat.find (⟨a, rfl⟩ : ∃ b, item.image b = item.image a)

theorem least_eq_iff {item : OperandItem} {a b : Nat} : item.least a = b ↔
    item.image b = item.image a ∧ ∀ c < b, item.image c ≠ item.image a :=
  Nat.find_eq_iff _

theorem image_least (item : OperandItem) (a : Nat) : item.image (item.least a) = item.image a :=
  (least_eq_iff.mp rfl).1

theorem least_le (item : OperandItem) (a : Nat) : item.least a ≤ a :=
  Nat.find_min' _ rfl

theorem image_ne_of_lt {item : OperandItem} {a b : Nat} (h : b < item.least a) :
    item.image b ≠ item.image a :=
  (least_eq_iff.mp rfl).2 b h

theorem invert_stored? {item : OperandItem} {a n : Nat} (h : (item.field a).stored? = some n) :
    Formula.invert item.formula n item.bits.width = some (item.least a) := by
  obtain ⟨-, himage, hfits, -⟩ := Field.stored?_eq_some_iff.mp h
  have hleast := (item.image_least a).trans himage
  cases hf : item.formula with
  | none =>
    simp only [image, Field.image, field, hf, Except.ok.injEq, Nat.cast_inj] at hleast
    rw [Formula.invert, hleast]
  | some f =>
    have htakes : ∀ b, f.takes b n = true ↔ item.image b = .ok n := by
      intro b
      simp only [Formula.takes, image, Field.image, field, hf]
      cases f.eval b <;> simp
    have hlt := BitRange.le_maxValue_iff.mp (hfits (by simp [field, hf]))
    rw [Formula.invert, List.find?_range_eq_some]
    refine ⟨(htakes _).mpr hleast, List.mem_range.mpr ((item.least_le a).trans_lt hlt), ?_⟩
    intro b hb
    rw [Bool.not_eq_true', ← Bool.not_eq_true, htakes, ← himage]
    exact image_ne_of_lt hb

theorem stored?_least {item : OperandItem} {a n : Nat} (h : (item.field a).stored? = some n)
    (ha : (item.field (item.least a)).accepts = true) :
    (item.field (item.least a)).stored? = some n := by
  obtain ⟨-, himage, hfits, hle⟩ := Field.stored?_eq_some_iff.mp h
  refine Field.stored?_eq_some_iff.mpr ⟨ha, (item.image_least a).trans himage, ?_, hle⟩
  exact fun hf => (item.least_le a).trans (hfits hf)

theorem IsInvertible.least_eq {item : OperandItem} (hi : item.IsInvertible) {a n : Nat}
    (h : (item.field a).stored? = some n) : item.least a = a := by
  obtain ⟨-, himage, hfits, -⟩ := Field.stored?_eq_some_iff.mp h
  have hleast := (item.image_least a).trans himage
  cases hf : item.formula with
  | none =>
    simp only [image, Field.image, field, hf, Except.ok.injEq, Nat.cast_inj] at himage hleast
    rw [hleast, himage]
  | some f =>
    have hlt := BitRange.le_maxValue_iff.mp (hfits (by simp [field, hf]))
    simp only [image, Field.image, field, hf] at himage hleast
    exact hi f hf _ _ n ((item.least_le a).trans_lt hlt) hlt hleast himage

theorem accepts_least {item : OperandItem} {a n : Nat} (h : (item.field a).stored? = some n)
    (hi : item.valid = none ∨ item.IsInvertible) :
    (item.field (item.least a)).accepts = true := by
  obtain hv | hi := hi
  · simp [Field.accepts, field, hv]
  · rw [hi.least_eq h]
    exact (Field.stored?_eq_some_iff.mp h).1

theorem content_fill_least (params : Nat) {items : List OperandItem} {args : List Nat}
    (h : List.Forall₂ (fun item a => (item.field (item.least a)).content = (item.field a).content)
      (items.filter (!·.isInputs)) args) :
    (fill params items (List.zipWith least (items.filter (!·.isInputs)) args)).map Field.content =
      (fill params items args).map Field.content := by
  induction items generalizing args with
  | nil => rfl
  | cons item items ih =>
    by_cases hi : item.isInputs = true
    · rw [List.filter_cons_of_neg (by simp [hi])] at h ⊢
      simp [fill, hi, ih h]
    · rw [List.filter_cons_of_pos (by simp [hi])] at h ⊢
      cases h with
      | cons hitem hrest => simp [fill, hi, hitem, ih hrest]

end OperandItem

namespace Opcode

variable {op : Opcode} {args : List Nat} {params : Nat} {operand : UInt16}

/-- For each argument the least value with its image is accepted. -/
def AcceptsLeast (op : Opcode) (args : List Nat) : Prop :=
  List.Forall₂ (fun item a => (item.field (item.least a)).accepts = true) op.userItems args

theorem stored?_of_packOperand (hf : op.fault? = none) (ha : args.length = op.arity)
    (h : op.packOperand args params = .ok operand) :
    List.Forall₂ (fun item a => (item.field a).stored? = some (item.bits.extract operand))
      op.userItems args := by
  obtain ⟨hs, rfl⟩ := Field.pack_eq_ok_iff.mp h
  have hd := OperandItem.pairwise_of_overlap? (fault?_eq_none_iff.mp hf).2.2.2.2
  rw [← OperandItem.map_bits_fill params op.operand args, List.pairwise_map] at hd
  refine (OperandItem.fill_userItems params ha).imp ?_
  intro item a hm
  obtain ⟨n, hn⟩ := Option.ne_none_iff_exists'.mp (hs _ hm)
  have hextract : item.bits.extract _ = n := Field.extract_union hd hs hm hn
  rw [hn, hextract]

theorem packOperand_least_iff (hf : op.fault? = none) (ha : args.length = op.arity)
    (h : op.packOperand args params = .ok operand) :
    op.packOperand (List.zipWith OperandItem.least op.userItems args) params = .ok operand ↔
      op.AcceptsLeast args := by
  constructor
  · intro hp
    have hlen : (List.zipWith OperandItem.least op.userItems args).length = op.arity := by
      simp [ha, arity]
    have hstored := stored?_of_packOperand hf hlen hp
    rw [forall₂_zipWith_iff ha] at hstored
    exact hstored.imp fun item a hn => (Field.stored?_eq_some_iff.mp hn).1
  · intro haccepts
    refine (Field.pack_eq_ok_congr (OperandItem.content_fill_least params ?_)).mpr h
    refine (stored?_of_packOperand hf ha h).mp ?_ haccepts
    intro item a hn hitem
    rw [Field.content, Field.content, OperandItem.stored?_least hn hitem, hn]
    rfl

theorem unpackOperand_iff_least (hf : op.fault? = none) (ha : args.length = op.arity)
    (h : op.packOperand args params = .ok operand) {args' : List Nat} :
    op.unpackOperand operand params = some args' ↔
      args' = List.zipWith OperandItem.least op.userItems args ∧
        op.packOperand args' params = .ok operand := by
  have hinvert : op.userItems.mapM (·.invert operand) =
      some (List.zipWith OperandItem.least op.userItems args) := by
    rw [mapM_eq_some_iff, forall₂_zipWith_iff ha]
    exact (stored?_of_packOperand hf ha h).imp fun item a hn => OperandItem.invert_stored? hn
  rw [unpackOperand_eq_some_iff, hinvert, Option.some.injEq, eq_comm]

theorem IsInvertible.zipWith_least (hi : op.IsInvertible) (hf : op.fault? = none)
    (ha : args.length = op.arity) (h : op.packOperand args params = .ok operand) :
    List.zipWith OperandItem.least op.userItems args = args := by
  have hboth := (List.forall₂_and_left _ _).mpr ⟨hi, stored?_of_packOperand hf ha h⟩
  apply zipWith_eq_right
  exact hboth.imp fun item a hitem => hitem.1.least_eq hitem.2

theorem exists_unpack_iff_acceptsLeast (hf : op.fault? = none) (ha : args.length = op.arity)
    (h : op.packOperand args params = .ok operand) :
    (∃ args', op.unpackOperand operand params = some args' ∧
      op.packOperand args' params = .ok operand) ↔ op.AcceptsLeast args := by
  rw [← packOperand_least_iff hf ha h]
  constructor
  · rintro ⟨args', hunpack, hpack⟩
    rwa [((unpackOperand_iff_least hf ha h).mp hunpack).1] at hpack
  · intro hpack
    exact ⟨_, (unpackOperand_iff_least hf ha h).mpr ⟨rfl, hpack⟩, hpack⟩

/-- An operand can be unpacked where each item has no formula, no valid ranges, or a formula that
gives no two values one image. -/
theorem exists_unpackOperand (hf : op.fault? = none) (ha : args.length = op.arity)
    (h : op.packOperand args params = .ok operand)
    (hitems : ∀ item ∈ op.userItems,
      item.formula = none ∨ item.valid = none ∨ item.IsInvertible) :
    ∃ args', op.unpackOperand operand params = some args' ∧
      op.packOperand args' params = .ok operand := by
  rw [exists_unpack_iff_acceptsLeast hf ha h]
  have hboth := (List.forall₂_and_left _ _).mpr ⟨hitems, stored?_of_packOperand hf ha h⟩
  refine hboth.imp fun item a hitem => OperandItem.accepts_least hitem.2 ?_
  obtain hformula | hvalid | hinvertible := hitem.1
  · exact .inr (OperandItem.isInvertible_of_formula_eq_none hformula)
  · exact .inl hvalid
  · exact .inr hinvertible

/-- An operand that was packed from some arguments can be unpacked just when the least values with
the images of the arguments are accepted. -/
theorem exists_unpackOperand_iff (hf : op.fault? = none) (ha : args.length = op.arity)
    (h : op.packOperand args params = .ok operand) :
    ((∃ args', op.unpackOperand operand params = some args' ∧
        op.packOperand args' params = .ok operand) ↔ op.AcceptsLeast args) ∧
      (op.unpackOperand operand params = none ↔ ¬ op.AcceptsLeast args) := by
  have hiff := exists_unpack_iff_acceptsLeast hf ha h
  refine ⟨hiff, ?_⟩
  rw [← hiff, Option.eq_none_iff_forall_ne_some, not_exists]
  refine forall_congr' fun args' => not_congr ?_
  exact ⟨fun hunpack => ⟨hunpack, (unpackOperand_eq_some_iff.mp hunpack).2⟩, And.left⟩

def halving (bits : BitRange) (valid : ValidRange) : Opcode where
  name := "half"
  operand := [{
    name := "n"
    bits := bits
    formula := some ⟨"arg / 2", .binary .div .var (.number 2)⟩
    valid := some [valid] }]
  inputs := .fixed 0
  outputs := .fixed 1

theorem exists_unpackOperand_iff_halving :
    let op := halving ⟨0, 3, by decide, by decide⟩ ⟨2, 15, by decide⟩
    op.fault? = none ∧ [3].length = op.arity ∧ op.packOperand [3] 0 = .ok 1 ∧
      ∃ args', op.unpackOperand 1 0 = some args' ∧ op.packOperand args' 0 = .ok 1 := by
  intro op
  have hf : op.fault? = none := by decide +kernel
  have ha : [3].length = op.arity := by decide
  have h : op.packOperand [3] 0 = .ok 1 := by decide
  have hleast : ∀ item ∈ op.operand, item.image 2 = item.image 3 ∧
      ∀ b < 2, item.image b ≠ item.image 3 := by decide
  have haccepts : ∀ item ∈ op.operand, (item.field 2).accepts = true := by decide
  refine ⟨hf, ha, h, (exists_unpackOperand_iff hf ha h).1.mpr (.cons ?_ .nil)⟩
  rw [OperandItem.least_eq_iff.mpr (hleast _ (.head _))]
  exact haccepts _ (.head _)

/-- Zero is stored for one and for zero, which is the least but is not accepted. -/
theorem unpackOperand_halving :
    let op := halving ⟨0, 3, by decide, by decide⟩ ⟨1, 15, by decide⟩
    op.fault? = none ∧ [1].length = op.arity ∧ op.packOperand [1] 0 = .ok 0 ∧
      ¬ ∃ args', op.unpackOperand 0 0 = some args' ∧ op.packOperand args' 0 = .ok 0 := by
  intro op
  have hnone : op.unpackOperand 0 0 = none := by decide
  refine ⟨by decide +kernel, by decide, by decide, ?_⟩
  rintro ⟨args', hunpack, -⟩
  rw [hnone] at hunpack
  cases hunpack

/-- Where no two values have the same image, an operand is unpacked to the arguments that it was
packed from and to no others. -/
theorem packOperand_eq_ok_iff (hf : op.fault? = none) (hi : op.IsInvertible)
    (ha : args.length = op.arity) :
    op.packOperand args params = .ok operand ↔ op.unpackOperand operand params = some args := by
  constructor
  · intro h
    rw [unpackOperand_iff_least hf ha h]
    exact ⟨(hi.zipWith_least hf ha h).symm, h⟩
  · intro h
    exact (unpackOperand_eq_some_iff.mp h).2

theorem packOperand_eq_ok_iff_between :
    let op : Opcode := {
      name := "mid"
      operand := [
        { name := "a", bits := ⟨8, 11, by decide, by decide⟩, formula := some Builtin.minusOne },
        { name := "inputs", bits := ⟨4, 7, by decide, by decide⟩,
          formula := some ⟨"n / 2", .binary .div .var (.number 2)⟩ },
        { name := "b", bits := ⟨0, 3, by decide, by decide⟩, valid := some [⟨9, 9, by decide⟩] }]
      inputs := .fixed 5
      outputs := .fixed 1 }
    op.fault? = none ∧ op.IsInvertible ∧ [3, 9].length = op.arity ∧
      op.packOperand [3, 9] 5 = .ok 0x229 ∧ op.unpackOperand 0x229 5 = some [3, 9] := by
  intro op
  have hf : op.fault? = none := by decide +kernel
  have ha : [3, 9].length = op.arity := by decide +kernel
  have h : op.packOperand [3, 9] 5 = .ok 0x229 := by decide +kernel
  have hformula : ∀ item ∈ op.userItems,
      item.formula = none ∨ item.formula = some Builtin.minusOne := by decide +kernel
  have hi : op.IsInvertible := Builtin.isInvertible_of_formula hformula
  exact ⟨hf, hi, ha, h, (packOperand_eq_ok_iff hf hi ha).mp h⟩

end Opcode

end Wordcode
