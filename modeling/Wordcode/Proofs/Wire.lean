import Wordcode.Opcode.Wire
import Wordcode.Proofs.JsonText
import Wordcode.Proofs.Packing

namespace Wordcode

namespace Json

variable {α : Type} {write : α → Json} {read : Json → Option α}

/-! ## Reading what was written -/

theorem list?_list {as : List α} (h : ∀ a ∈ as, read (write a) = some a) :
    list? read (list write as) = some as := by
  apply mapM_eq_some_iff.mpr
  rw [List.forall₂_map_left_iff, List.forall₂_same]
  exact h

theorem nat?_nat {n max : Nat} (h : n ≤ max) : nat? max (nat n) = some n := by
  rw [nat, nat?, if_pos ⟨Int.natCast_nonneg n, Int.ofNat_le.mpr h⟩, Int.toNat_natCast]

theorem list?_nats {ns : List Nat} {max : Nat} (h : ∀ n ∈ ns, n ≤ max) :
    list? (nat? max) (nats ns) = some ns :=
  list?_list fun n hn => nat?_nat (h n hn)

theorem nullable_map {o : Option α} (h : ∀ a ∈ o, read (write a) = some a ∧ write a ≠ .null) :
    nullable read (o.map write) = some o := by
  cases o with
  | none => rfl
  | some a =>
    obtain ⟨hread, hnull⟩ := h a rfl
    rw [Option.map_some, nullable, hread, Option.map_some]
    exact hnull

/-! ## What was read -/

theorem of_nat? {n max : Nat} {v : Json} (h : nat? max v = some n) : n ≤ max := by
  cases v with
  | int m =>
    rw [nat?] at h
    split at h
    · cases h
      omega
    · cases h
  | _ => cases h

theorem of_mem_list? {v : Json} {as : List α} (h : list? read v = some as) :
    ∀ a ∈ as, ∃ w, read w = some a := by
  intro a ha
  cases v with
  | array items =>
    obtain ⟨w, -, hw⟩ := forall₂_mem_right (mapM_eq_some_iff.mp h) ha
    exact ⟨w, hw⟩
  | _ => cases h

theorem of_mem_nullable {v : Option Json} {o : Option α} (h : nullable read v = some o) :
    ∀ a ∈ o, ∃ w, read w = some a := by
  rintro a rfl
  unfold nullable at h
  split at h
  · cases h
  · cases h
  · rename_i w _
    simp only [Option.map_eq_some_iff, Option.some.injEq, exists_eq_right] at h
    exact ⟨w, h⟩

/-! ## Records -/

def fieldsOf (names : List String) (values : List (Option Json)) : List (String × Json) :=
  (names.zip values).flatMap fun (name, v) => v.toList.map fun v => (name, v)

theorem mem_of_mem_fieldsOf {names : List String} {values : List (Option Json)}
    {field : String × Json} (h : field ∈ fieldsOf names values) :
    field.1 ∈ names ∧ some field.2 ∈ values := by
  simp only [fieldsOf, List.mem_flatMap, List.mem_map, Option.mem_toList] at h
  obtain ⟨⟨name, v⟩, hmem, w, rfl, rfl⟩ := h
  exact ⟨(List.of_mem_zip hmem).1, (List.of_mem_zip hmem).2⟩

theorem filter_eq_nil_of_notMem {fields : List (String × Json)} {name : String}
    (h : ∀ field ∈ fields, field.1 ≠ name) : fields.filter (·.1 == name) = [] := by
  rw [List.filter_eq_nil_iff]
  intro field hf
  simpa using h field hf

theorem field?_of_filter {fields : List (String × Json)} {name : String} {v : Option Json}
    (h : fields.filter (·.1 == name) = v.toList.map fun v => (name, v)) :
    field? fields name = some v := by
  cases v with
  | none => simp [field?, h]
  | some v => simp [field?, h]

theorem mapM_field? {names : List String} {values : List (Option Json)}
    (hl : names.length = values.length) (hn : names.Nodup) (before : List (String × Json))
    (hb : ∀ field ∈ before, field.1 ∉ names) :
    names.mapM (field? (before ++ fieldsOf names values)) = some values := by
  induction names generalizing values before with
  | nil =>
    cases values with
    | nil => rfl
    | cons => cases hl
  | cons name names ih =>
    cases values with
    | nil => cases hl
    | cons v values =>
      obtain ⟨hname, hn⟩ := List.nodup_cons.mp hn
      have hsplit : before ++ fieldsOf (name :: names) (v :: values) =
          (before ++ v.toList.map fun v => (name, v)) ++ fieldsOf names values := by
        simp [fieldsOf]
      have hother : ∀ field ∈ fieldsOf names values, field.1 ≠ name := by
        rintro field hf rfl
        exact hname (mem_of_mem_fieldsOf hf).1
      have hfirst : field? (before ++ fieldsOf (name :: names) (v :: values)) name = some v := by
        apply field?_of_filter
        rw [hsplit, List.filter_append, List.filter_append,
          filter_eq_nil_of_notMem fun field hf he => hb field hf (by simp [he]),
          filter_eq_nil_of_notMem hother]
        simp
      have hrest : names.mapM (field? (before ++ fieldsOf (name :: names) (v :: values))) =
          some values := by
        rw [hsplit]
        apply ih (by simpa using hl) hn _
        intro field hf
        rcases List.mem_append.mp hf with hf | hf
        · exact fun hm => hb field hf (by simp [hm])
        · simp only [List.mem_map] at hf
          obtain ⟨_, -, rfl⟩ := hf
          exact hname
      simp [List.mapM_cons, hfirst, hrest]

theorem record?_fieldsOf {names : List String} {values : List (Option Json)}
    (hl : names.length = values.length) (hn : names.Nodup) :
    record? names (.object (fieldsOf names values)) = some values := by
  rw [record?]
  exact mapM_field? hl hn [] (by simp)

def given (empty : Bool) (v : Json) : Option Json :=
  if empty then none else some v

theorem withDefault_string (s : String) :
    withDefault "" string? (given s.isEmpty (.string s)) = some s := by
  by_cases h : s.isEmpty = true
  · rw [given, if_pos h, withDefault, String.isEmpty_iff.mp h]
  · rw [given, if_neg h, withDefault, string?]

theorem withDefault_list {as : List α} (h : ∀ a ∈ as, read (write a) = some a) :
    withDefault [] (list? read) (given as.isEmpty (list write as)) = some as := by
  by_cases he : as.isEmpty = true
  · rw [given, if_pos he, withDefault, List.isEmpty_iff.mp he]
  · rw [given, if_neg he, withDefault, list?_list h]

/-! ## Size of what is written -/

theorem plainItems_iff {items : List Json} : PlainItems items ↔ ∀ v ∈ items, v.Plain := by
  induction items with
  | nil => simp [PlainItems]
  | cons v items ih => simp [PlainItems, ih]

theorem plainFields_iff {fields : List (String × Json)} :
    PlainFields fields ↔ ∀ field ∈ fields, field.2.Plain := by
  induction fields with
  | nil => simp [PlainFields]
  | cons field fields ih => simp [PlainFields, ih]

theorem readableItems_iff {room : Nat} {items : List Json} :
    readableItems room items = true ↔ ∀ v ∈ items, v.readable room = true := by
  induction items with
  | nil => simp [readableItems]
  | cons v items ih => simp [readableItems, ih]

theorem readableFields_iff {room : Nat} {fields : List (String × Json)} :
    readableFields room fields = true ↔ ∀ field ∈ fields, field.2.readable room = true := by
  induction fields with
  | nil => simp [readableFields]
  | cons field fields ih => simp [readableFields, ih]

/-- A value that is plain and that can be read as a whole. -/
structure Fits (room : Nat) (v : Json) : Prop where
  plain : v.Plain
  readable : v.readable room = true

namespace Fits

variable {room : Nat}

theorem string (s : String) : Fits room (.string s) :=
  ⟨by simp [Plain], by simp [Json.readable]⟩

theorem nat {n : Nat} (h : n < 2 ^ 64) : Fits room (.nat n) := by
  refine ⟨?_, by simp [Json.nat, Json.readable]⟩
  rw [Json.nat, Plain]
  omega

theorem list {as : List α} (h : ∀ a ∈ as, Fits room (write a)) :
    Fits (room + 1) (.list write as) := by
  constructor
  · rw [Json.list, Plain, plainItems_iff, List.forall_mem_map]
    exact fun a ha => (h a ha).plain
  · rw [Json.list, Json.readable]
    simp only [Nat.zero_lt_succ, decide_true, Bool.true_and, Nat.add_sub_cancel]
    rw [readableItems_iff, List.forall_mem_map]
    exact fun a ha => (h a ha).readable

theorem object {names : List String} {values : List (Option Json)}
    (h : ∀ v, some v ∈ values → Fits room v) :
    Fits (room + 1) (.object (fieldsOf names values)) := by
  constructor
  · rw [Plain, plainFields_iff]
    exact fun field hf => (h _ (mem_of_mem_fieldsOf hf).2).plain
  · rw [Json.readable]
    simp only [Nat.zero_lt_succ, decide_true, Bool.true_and, Nat.add_sub_cancel]
    rw [readableFields_iff]
    exact fun field hf => (h _ (mem_of_mem_fieldsOf hf).2).readable

theorem of_given {empty : Bool} {v w : Json} (h : Fits room v)
    (hw : some w = given empty v) : Fits room w := by
  unfold given at hw
  split at hw
  · cases hw
  · cases hw
    exact h

end Fits

end Json

/-! ## Ranges and formulas -/

theorem BitRange.ofJson?_toJson (r : BitRange) : BitRange.ofJson? r.toJson = some r := by
  have hlo : Json.nat? 255 (.nat r.lo) = some r.lo :=
    Json.nat?_nat (by have := r.lo_le_hi; have := r.hi_lt; omega)
  have hhi : Json.nat? 255 (.nat r.hi) = some r.hi :=
    Json.nat?_nat (by have := r.hi_lt; omega)
  have hr : BitRange.ofBounds r.lo r.hi = .ok r := by
    rw [BitRange.ofBounds, dif_pos r.lo_le_hi, dif_pos r.hi_lt]
  simp [BitRange.ofJson?, BitRange.toJson, Json.nats, Json.list, Json.pair?, hlo, hhi, hr,
    Except.toOption]

theorem BitRange.fits_toJson {room : Nat} (r : BitRange) : Json.Fits (room + 1) r.toJson := by
  apply Json.Fits.list
  have hlo := r.lo_le_hi
  have hhi := r.hi_lt
  simp only [List.mem_cons, List.not_mem_nil, or_false, forall_eq_or_imp, forall_eq]
  exact ⟨.nat (by omega), .nat (by omega)⟩

/-- The bounds can be written. -/
def ValidRange.IsWritable (r : ValidRange) : Prop :=
  r.max ≤ 2 ^ 32 - 1

theorem ValidRange.ofList_toList (r : ValidRange) : ValidRange.ofList r.toList = .ok r := by
  obtain ⟨min, max, hle⟩ := r
  by_cases h : min = max
  · subst h
    simp [toList, ofList]
  · simp [toList, ofList, h, hle]

theorem ValidRange.le_of_mem_toList {r : ValidRange} {n : Nat} (h : n ∈ r.toList) :
    n ≤ r.max := by
  have hle := r.min_le_max
  unfold toList at h
  split at h
  · simp at h
    omega
  · simp at h
    omega

theorem ValidRange.ofJson?_toJson {r : ValidRange} (h : r.IsWritable) :
    ValidRange.ofJson? r.toJson = some r := by
  have hl : Json.list? (Json.nat? (2 ^ 32 - 1)) (.nats r.toList) = some r.toList :=
    Json.list?_nats fun n hn => Nat.le_trans (le_of_mem_toList hn) h
  simp only [ValidRange.ofJson?, toJson, Nat.pow_eq, hl, Option.bind_eq_bind, Option.bind_some,
    ofList_toList, Except.toOption]

theorem ValidRange.fits_toJson {room : Nat} {r : ValidRange} (h : r.IsWritable) :
    Json.Fits (room + 1) r.toJson := by
  apply Json.Fits.list
  intro n hn
  apply Json.Fits.nat
  have := Nat.le_trans (le_of_mem_toList hn) h
  omega

theorem ValidRange.isWritable_of_ofJson? {v : Json} {r : ValidRange}
    (h : ValidRange.ofJson? v = some r) : r.IsWritable := by
  simp only [ValidRange.ofJson?, Option.bind_eq_bind, Option.bind_eq_some_iff] at h
  obtain ⟨ns, hns, hr⟩ := h
  have hle : ∀ n ∈ ns, n ≤ 2 ^ 32 - 1 := by
    intro n hn
    obtain ⟨w, hw⟩ := Json.of_mem_list? hns n hn
    exact Json.of_nat? hw
  match ns, hle, hr with
  | [v], hle, hr =>
    cases hr
    exact hle v (by simp)
  | [min, max], hle, hr =>
    rw [ofList] at hr
    split at hr
    · cases hr
      exact hle max (by simp)
    · cases hr
  | [], _, hr => cases hr
  | _ :: _ :: _ :: _, _, hr => cases hr

def Formula.IsWritable (f : Formula) : Prop :=
  Formula.read f.source = .ok f

theorem Formula.ofJson?_toJson {f : Formula} (h : f.IsWritable) :
    Formula.ofJson? f.toJson = some f := by
  unfold IsWritable at h
  simp [Formula.ofJson?, toJson, Json.string?, h, Except.toOption]

theorem Formula.isWritable_of_ofJson? {v : Json} {f : Formula} (h : Formula.ofJson? v = some f) :
    f.IsWritable := by
  simp only [Formula.ofJson?, Option.bind_eq_bind, Option.bind_eq_some_iff] at h
  obtain ⟨source, -, hf⟩ := h
  have hread : Formula.read source = .ok f := by
    cases hr : Formula.read source with
    | error err =>
      rw [hr] at hf
      cases hf
    | ok g =>
      rw [hr] at hf
      cases hf
      rfl
  have hs : f.source = source := by
    unfold Formula.read at hread
    split at hread
    · cases hread
      rfl
    · cases hread
  rw [IsWritable, hs, hread]

/-! ## Parameters and counts -/

namespace Parameter

theorem toJson_eq (p : Parameter) : p.toJson = .object (Json.fieldsOf ["name", "desc"]
    [some (.string p.name), Json.given p.desc.isEmpty (.string p.desc)]) := by
  by_cases h : p.desc.isEmpty = true <;>
    simp [toJson, Json.fieldsOf, descField, Json.given, h]

theorem ofJson?_toJson (p : Parameter) : ofJson? p.toJson = some p := by
  rw [toJson_eq, ofJson?, Json.record?_fieldsOf rfl (by decide)]
  simp [Json.string?, Json.withDefault_string]

theorem fits_toJson {room : Nat} (p : Parameter) : Json.Fits (room + 1) p.toJson := by
  rw [toJson_eq]
  apply Json.Fits.object
  intro v hv
  simp only [List.mem_cons, List.not_mem_nil, or_false, Option.some.injEq] at hv
  obtain rfl | hv := hv
  · exact .string p.name
  · exact .of_given (.string p.desc) hv

end Parameter

namespace Arity

/-- The count fits in 64 bits, and the formula is the one that its text stands for. -/
def IsWritable : Arity → Prop
  | .count n => n ≤ 2 ^ 64 - 1
  | .detailed _ _ formula => ∀ f ∈ formula, f.IsWritable

theorem toJson_detailed (parameters : List Parameter) (bits : Option BitRange)
    (formula : Option Formula) :
    (detailed parameters bits formula).toJson =
      .object (Json.fieldsOf ["parameters", "bits", "computation"]
        [Json.given parameters.isEmpty (.list Parameter.toJson parameters),
          bits.map BitRange.toJson, formula.map Formula.toJson]) := by
  by_cases h : parameters.isEmpty = true <;> cases bits <;> cases formula <;>
    simp [toJson, Json.fieldsOf, listField, optionField, Json.given, h]

theorem fits_toJson {room : Nat} {a : Arity} (h : a.IsWritable) :
    Json.Fits (room + 3) a.toJson := by
  cases a with
  | count n =>
    apply Json.Fits.nat
    unfold IsWritable at h
    omega
  | detailed parameters bits formula =>
    rw [toJson_detailed]
    apply Json.Fits.object
    intro v hv
    simp only [List.mem_cons, List.not_mem_nil, or_false, eq_comm (a := some v),
      Option.map_eq_some_iff] at hv
    obtain hv | ⟨r, -, rfl⟩ | ⟨f, -, rfl⟩ := hv
    · exact .of_given (.list fun p _ => Parameter.fits_toJson p) hv.symm
    · exact r.fits_toJson
    · exact .string f.source

theorem ofJson?_toJson {room : Nat} {a : Arity} (h : a.IsWritable) :
    ofJson? (room + 3) a.toJson = some a := by
  have hfits : a.toJson.readable (room + 3) = true := (fits_toJson h).readable
  cases a with
  | count n =>
    have hn : Json.nat? (2 ^ 64 - 1) (.nat n) = some n := Json.nat?_nat h
    rw [toJson, Json.nat] at hfits
    rw [Json.nat] at hn
    simp only [toJson, Json.nat, ofJson?, Nat.pow_eq, hfits, hn, Bool.not_true,
      Bool.false_eq_true, if_false, Option.bind_eq_bind, Option.bind_some, Option.pure_def]
  | detailed parameters bits formula =>
    rw [toJson_detailed] at hfits ⊢
    have hp : Json.withDefault [] (Json.list? Parameter.ofJson?)
        (Json.given parameters.isEmpty (.list Parameter.toJson parameters)) = some parameters :=
      Json.withDefault_list fun p _ => p.ofJson?_toJson
    have hb : Json.nullable BitRange.ofJson? (bits.map BitRange.toJson) = some bits :=
      Json.nullable_map fun r _ => ⟨r.ofJson?_toJson, nofun⟩
    have hf : Json.nullable Formula.ofJson? (formula.map Formula.toJson) = some formula :=
      Json.nullable_map fun f hf => ⟨Formula.ofJson?_toJson (h f hf), nofun⟩
    simp only [ofJson?, hfits, Bool.not_true, Bool.false_eq_true, if_false]
    rw [Json.record?_fieldsOf rfl (by decide)]
    simp [hp, hb, hf]

theorem isWritable_of_ofJson? {room : Nat} {v : Json} {a : Arity}
    (h : ofJson? room v = some a) : a.IsWritable := by
  by_cases hr : v.readable room = true
  case neg => simp [ofJson?, hr] at h
  simp only [ofJson?, hr, Bool.not_true, Bool.false_eq_true, if_false] at h
  split at h
  · simp only [Option.bind_eq_bind, Option.bind_eq_some_iff] at h
    obtain ⟨values, -, h⟩ := h
    split at h
    · simp only [Option.bind_eq_some_iff, Option.pure_def, Option.some.injEq] at h
      obtain ⟨_, -, _, -, formula, hformula, rfl⟩ := h
      intro f hf
      obtain ⟨w, hw⟩ := Json.of_mem_nullable hformula f hf
      exact Formula.isWritable_of_ofJson? hw
    · cases h
  · simp only [Option.bind_eq_bind, Option.bind_eq_some_iff, Option.pure_def,
      Option.some.injEq] at h
    obtain ⟨n, hn, rfl⟩ := h
    exact Json.of_nat? hn

end Arity

theorem InputRule.ofArity?_toArity (rule : InputRule) : ofArity? rule.toArity = some rule := by
  cases rule <;> rfl

theorem InputRule.isWritable_of_ofArity? {a : Arity} {rule : InputRule} (h : a.IsWritable)
    (hr : ofArity? a = some rule) : rule.toArity.IsWritable := by
  unfold ofArity? at hr
  split at hr
  · cases hr
    exact h
  · cases hr
    exact h
  · cases hr
  · cases hr
    exact h

theorem OutputRule.ofArity?_toArity (rule : OutputRule) : ofArity? rule.toArity = some rule := by
  cases rule <;> rfl

theorem OutputRule.isWritable_of_ofArity? {a : Arity} {rule : OutputRule} (h : a.IsWritable)
    (hr : ofArity? a = some rule) : rule.toArity.IsWritable := by
  unfold ofArity? at hr
  split at hr
  · cases hr
    exact h
  · cases hr
    exact h
  · cases hr

/-! ## Opcodes -/

namespace OperandItem

structure IsWritable (item : OperandItem) : Prop where
  formula : ∀ f ∈ item.formula, f.IsWritable
  valid : ∀ ranges ∈ item.valid, ∀ r ∈ ranges, r.IsWritable

theorem toJson_eq (item : OperandItem) : item.toJson =
    .object (Json.fieldsOf ["name", "desc", "bits", "computation", "validRange"]
      [some (.string item.name), Json.given item.desc.isEmpty (.string item.desc),
        some item.bits.toJson, item.formula.map Formula.toJson,
        item.valid.map (Json.list ValidRange.toJson)]) := by
  obtain ⟨name, desc, bits, formula, valid⟩ := item
  by_cases h : desc.isEmpty = true <;> cases formula <;> cases valid <;>
    simp [toJson, Json.fieldsOf, descField, optionField, Json.given, h]

theorem fits_toJson {room : Nat} {item : OperandItem} (h : item.IsWritable) :
    Json.Fits (room + 3) item.toJson := by
  rw [toJson_eq]
  apply Json.Fits.object
  intro v hv
  simp only [List.mem_cons, List.not_mem_nil, or_false, Option.some.injEq, eq_comm (a := some v),
    Option.map_eq_some_iff] at hv
  obtain rfl | hv | rfl | ⟨f, -, rfl⟩ | ⟨ranges, hranges, rfl⟩ := hv
  · exact .string item.name
  · exact .of_given (.string item.desc) hv.symm
  · exact item.bits.fits_toJson
  · exact .string f.source
  · exact .list fun r hr => ValidRange.fits_toJson (h.valid ranges hranges r hr)

theorem ofJson?_toJson {item : OperandItem} (h : item.IsWritable) :
    ofJson? item.toJson = some item := by
  have hf : Json.nullable Formula.ofJson? (item.formula.map Formula.toJson) =
      some item.formula :=
    Json.nullable_map fun f hf => ⟨Formula.ofJson?_toJson (h.formula f hf), nofun⟩
  have hv : Json.nullable (Json.list? ValidRange.ofJson?)
      (item.valid.map (Json.list ValidRange.toJson)) = some item.valid :=
    Json.nullable_map fun ranges hr =>
      ⟨Json.list?_list fun r hmem => ValidRange.ofJson?_toJson (h.valid ranges hr r hmem), nofun⟩
  rw [toJson_eq, ofJson?, Json.record?_fieldsOf rfl (by decide)]
  simp [Json.string?, Json.withDefault_string, BitRange.ofJson?_toJson, hf, hv]

theorem isWritable_of_ofJson? {v : Json} {item : OperandItem} (h : ofJson? v = some item) :
    item.IsWritable := by
  simp only [ofJson?, Option.bind_eq_bind, Option.bind_eq_some_iff] at h
  obtain ⟨values, -, h⟩ := h
  split at h
  · simp only [Option.bind_eq_some_iff, Option.pure_def, Option.some.injEq] at h
    obtain ⟨_, -, _, -, _, -, formula, hformula, valid, hvalid, rfl⟩ := h
    constructor
    · intro f hf
      obtain ⟨w, hw⟩ := Json.of_mem_nullable hformula f hf
      exact Formula.isWritable_of_ofJson? hw
    · intro ranges hranges r hr
      obtain ⟨w, hw⟩ := Json.of_mem_nullable hvalid ranges hranges
      obtain ⟨w, hw⟩ := Json.of_mem_list? hw r hr
      exact ValidRange.isWritable_of_ofJson? hw
  · cases h

theorem fits_listToJson {room : Nat} {items : List OperandItem}
    (h : ∀ item ∈ items, item.IsWritable) : Json.Fits (room + 4) (listToJson items) := by
  by_cases he : items.isEmpty = true
  · rw [listToJson, if_pos he]
    exact .nat (by decide)
  · rw [listToJson, if_neg he]
    exact .list fun item hm => fits_toJson (h item hm)

theorem listOfJson?_listToJson {room : Nat} {items : List OperandItem}
    (h : ∀ item ∈ items, item.IsWritable) :
    listOfJson? (room + 4) (listToJson items) = some items := by
  have hfits : (listToJson items).readable (room + 4) = true := (fits_listToJson h).readable
  cases items with
  | nil => simp [listToJson, listOfJson?, Json.nat, Json.nat?, Json.readable]
  | cons item items =>
    have hl : Json.list? ofJson? (.list toJson (item :: items)) = some (item :: items) :=
      Json.list?_list fun item hm => ofJson?_toJson (h item hm)
    rw [listToJson, if_neg (by simp)] at hfits ⊢
    rw [Json.list] at hfits hl ⊢
    rw [Json.list?] at hl
    simp only [listOfJson?, hfits, Bool.not_true, Bool.false_eq_true, if_false, hl]

theorem isWritable_of_mem_listOfJson? {room : Nat} {v : Json} {items : List OperandItem}
    (h : listOfJson? room v = some items) : ∀ item ∈ items, item.IsWritable := by
  by_cases hr : v.readable room = true
  case neg => simp [listOfJson?, hr] at h
  simp only [listOfJson?, hr, Bool.not_true, Bool.false_eq_true, if_false] at h
  split at h
  · rename_i vs
    intro item hm
    obtain ⟨w, hw⟩ := Json.of_mem_list? (v := .array vs) h item hm
    exact isWritable_of_ofJson? hw
  · simp only [Option.bind_eq_bind, Option.bind_eq_some_iff] at h
    obtain ⟨n, -, h⟩ := h
    split at h
    · cases h
      simp
    · cases h

end OperandItem

namespace Opcode

/-- Each part of the description can be written so that it is read again. -/
structure IsWritable (op : Opcode) : Prop where
  operand : ∀ item ∈ op.operand, item.IsWritable
  inputs : op.inputs.toArity.IsWritable
  outputs : op.outputs.toArity.IsWritable

theorem toJson_eq (op : Opcode) : op.toJson =
    .object (Json.fieldsOf ["name", "desc", "aliases", "operand", "inputs", "outputs"]
      [some (.string op.name), Json.given op.desc.isEmpty (.string op.desc),
        Json.given op.aliases.isEmpty (.list .string op.aliases),
        some (OperandItem.listToJson op.operand), some op.inputs.toArity.toJson,
        some op.outputs.toArity.toJson]) := by
  by_cases hd : op.desc.isEmpty = true <;> by_cases ha : op.aliases.isEmpty = true <;>
    simp [toJson, Json.fieldsOf, descField, listField, Json.given, hd, ha]

theorem fits_toJson {room : Nat} {op : Opcode} (h : op.IsWritable) :
    Json.Fits (room + 5) op.toJson := by
  rw [toJson_eq]
  apply Json.Fits.object
  intro v hv
  simp only [List.mem_cons, List.not_mem_nil, or_false, Option.some.injEq] at hv
  obtain rfl | hv | hv | rfl | rfl | rfl := hv
  · exact .string op.name
  · exact .of_given (.string op.desc) hv
  · exact .of_given (.list fun s _ => .string s) hv
  · exact OperandItem.fits_listToJson h.operand
  · exact Arity.fits_toJson h.inputs
  · exact Arity.fits_toJson h.outputs

theorem ofJson?_toJson {room : Nat} {op : Opcode} (h : op.IsWritable) :
    ofJson? (room + 4) op.toJson = some op := by
  have ha : Json.withDefault [] (Json.list? Json.string?)
      (Json.given op.aliases.isEmpty (.list .string op.aliases)) = some op.aliases :=
    Json.withDefault_list fun _ _ => rfl
  rw [toJson_eq, ofJson?, Json.record?_fieldsOf rfl (by decide)]
  simp [Json.string?, Json.withDefault_string, ha, OperandItem.listOfJson?_listToJson h.operand,
    Arity.ofJson?_toJson h.inputs, Arity.ofJson?_toJson h.outputs, InputRule.ofArity?_toArity,
    OutputRule.ofArity?_toArity]

theorem isWritable_of_ofJson? {room : Nat} {v : Json} {op : Opcode}
    (h : ofJson? room v = some op) : op.IsWritable := by
  simp only [ofJson?, Option.bind_eq_bind, Option.bind_eq_some_iff] at h
  obtain ⟨values, -, h⟩ := h
  split at h
  · simp only [Option.bind_eq_some_iff, Option.pure_def, Option.some.injEq] at h
    obtain ⟨_, -, _, -, _, -, items, hitems, a, ha, inputs, hinputs, b, hb, outputs, houtputs,
      rfl⟩ := h
    exact ⟨OperandItem.isWritable_of_mem_listOfJson? hitems,
      InputRule.isWritable_of_ofArity? (Arity.isWritable_of_ofJson? ha) hinputs,
      OutputRule.isWritable_of_ofArity? (Arity.isWritable_of_ofJson? hb) houtputs⟩
  · cases h

end Opcode

end Wordcode
