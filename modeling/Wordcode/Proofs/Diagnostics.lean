import Wordcode.Opcode.Builtin
import Wordcode.Proofs.Agreement

namespace Wordcode

theorem OperandItem.getElem?_fill {params : Nat} {items : List OperandItem} {args : List Nat}
    {k : Nat} {item : OperandItem} (h : items[k]? = some item) :
    (fill params items args)[k]? = some (item.field
      (if item.isInputs then min params maxCount
        else args.getD ((items.take k).countP (!·.isInputs)) 0)) := by
  induction items generalizing args k with
  | nil => simp at h
  | cons first items ih =>
    cases k with
    | zero =>
      obtain rfl : first = item := by simpa using h
      by_cases hi : first.isInputs = true
      · simp [fill, hi]
      · cases args <;> simp [fill, hi]
    | succ k =>
      rw [List.getElem?_cons_succ] at h
      by_cases hi : first.isInputs = true
      · simp [fill, hi, ih h]
      · cases args <;> simp [fill, hi, ih h]

namespace Opcode

/-- The item at index `k` is given the argument at index `j`, whatever the arguments are. -/
def Places (op : Opcode) (k j : Nat) : Prop :=
  ∀ (params : Nat) (args : List Nat), args.length = op.arity → ∃ item a,
    op.operand[k]? = some item ∧ args[j]? = some a ∧
      (OperandItem.fill params op.operand args)[k]? = some (item.field a)

variable {op : Opcode} {k j j' : Nat} {item : OperandItem}

theorem countP_take_lt_arity (h : op.operand[k]? = some item) (hi : item.isInputs = false) :
    (op.operand.take k).countP (!·.isInputs) < op.arity := by
  obtain ⟨hk, rfl⟩ := List.getElem?_eq_some_iff.mp h
  have hsplit := List.take_append_drop k op.operand
  rw [List.drop_eq_getElem_cons hk] at hsplit
  rw [arity, userItems, ← List.countP_eq_length_filter]
  conv_rhs => rw [← hsplit]
  rw [List.countP_append, List.countP_cons]
  simp [hi]

theorem places_of_item (h : op.operand[k]? = some item) (hi : item.isInputs = false) :
    op.Places k ((op.operand.take k).countP (!·.isInputs)) := by
  intro params args hargs
  have hlt := countP_take_lt_arity h hi
  rw [← hargs] at hlt
  refine ⟨item, _, h, List.getElem?_eq_getElem hlt, ?_⟩
  rw [OperandItem.getElem?_fill h, if_neg (by simp [hi]), List.getD_eq_getElem _ _ hlt]

theorem Places.unique (h : op.Places k j) (h' : op.Places k j') : j = j' := by
  obtain ⟨item, a, -, ha, hfield⟩ := h 0 (List.range op.arity) List.length_range
  obtain ⟨item', a', -, ha', hfield'⟩ := h' 0 (List.range op.arity) List.length_range
  obtain ⟨_, rfl⟩ := List.getElem?_eq_some_iff.mp ha
  obtain ⟨_, rfl⟩ := List.getElem?_eq_some_iff.mp ha'
  rw [hfield, Option.some.injEq] at hfield'
  simpa [OperandItem.field] using congrArg Field.value hfield'

end Opcode

/-- A problem about the item at index `k`, which refused its value: a number of parameters is
reported at the call, and anything else at the argument that the item is given. -/
inductive Call.Blames (c : Call) (op : Opcode) (k : Nat) (p : Problem) : Prop
  | inputs {item : OperandItem} : op.operand[k]? = some item → item.name = "inputs" →
      p.code = .outOfRangeInputs → p.position = c.position → Blames c op k p
  | argument {item : OperandItem} {j : Nat} {a : Argument} : op.operand[k]? = some item →
      item.name ≠ "inputs" → (∀ j', op.Places k j' ↔ j' = j) → c.arguments[j]? = some a →
      p.code = .outOfRangeOperandArgs → p.position = a.position → Blames c op k p

namespace Call

variable {c : Call} {op : Opcode} {params k : Nat}

theorem badItem_blames (params : Nat) (harity : c.arguments.length = op.arity)
    (hk : k < op.operand.length) :
    ∃ p, c.badItem params op.operand k = some p ∧ c.Blames op k p := by
  have hitem : op.operand[k]? = some op.operand[k] := List.getElem?_eq_getElem hk
  cases hi : op.operand[k].isInputs with
  | true =>
    refine ⟨c.badInputs params, by simp [badItem, hitem, hi], .inputs hitem ?_ rfl rfl⟩
    simpa [OperandItem.isInputs] using hi
  | false =>
    have hplaces := Opcode.places_of_item hitem hi
    have hlt := Opcode.countP_take_lt_arity hitem hi
    rw [← harity] at hlt
    have harg := List.getElem?_eq_getElem hlt
    refine ⟨_, by simp only [badItem, hitem, hi, harg]; rfl,
      .argument hitem ?_ (fun j' => ⟨fun h => h.unique hplaces, ?_⟩) harg rfl rfl⟩
    · simpa [OperandItem.isInputs] using hi
    · rintro rfl
      exact hplaces

theorem filterMap_badItem (harity : c.arguments.length = op.arity) {indices : List Nat}
    (h : ∀ k ∈ indices, k < op.operand.length) :
    List.Forall₂ (c.Blames op) indices (indices.filterMap (c.badItem params op.operand)) := by
  induction indices with
  | nil => exact .nil
  | cons k indices ih =>
    rw [List.forall_mem_cons] at h
    obtain ⟨p, hp, hblames⟩ := badItem_blames params harity h.1
    rw [List.filterMap_cons_some hp]
    exact .cons hblames (ih h.2)

theorem resolve_of_refused (nested : Bool) {indices : List Nat}
    (harity : c.arguments.length = op.arity)
    (h : op.packOperand (c.arguments.map (·.value)) params = .error indices) :
    ∃ problems, c.resolve op params nested = .error problems ∧
      List.Forall₂ (c.Blames op) indices problems := by
  refine ⟨indices.filterMap (c.badItem params op.operand), by rw [resolve, h],
    filterMap_badItem harity ?_⟩
  exact (Opcode.packOperand_eq_error h).2

end Call

theorem Frame.close_of_refused {f : Frame} {op : Opcode} {indices : List Nat} (i : Nat)
    (nested : Bool) (hentry : f.entry = some op) (herror : f.operandError = false)
    (harity : f.call.arguments.length = op.arity)
    (h : op.packOperand (f.call.arguments.map (·.value)) f.parameters.length = .error indices) :
    ∃ problems, f.close i nested = (.call (f.closed i) f.parameters.reverse [], problems) ∧
      List.Forall₂ ((f.closed i).Blames op) indices problems := by
  rw [← List.length_reverse] at h
  obtain ⟨problems, hresolve, hblames⟩ :=
    Call.resolve_of_refused (c := f.closed i) nested harity h
  refine ⟨problems, ?_, hblames⟩
  simp only [close, hentry, herror, hresolve]

namespace Reading

theorem read_problems (ctx : Context) {right : Segment} {before after : List Token} {t : Token}
    (h : Token.scan right = before ++ t :: after) :
    ((step ctx (before.foldl (step ctx) {}) t).problems.reverse) <+:
      (read ctx right).problems.reverse := by
  rw [List.reverse_prefix, read_eq, h, List.foldl_append, List.foldl_cons]
  exact (foldl_step_problems ctx _ after).trans (finishFrames_problems _ _ _ _)

/-- A call is closed whose operand text is good, and its opcode refuses some of the values. Then
the call stays without an operand and without outputs, and for each item that refused its value
there is one problem, in their order: at the call for the number of parameters, and otherwise at
the argument that the item was given. -/
theorem close_reports_refused (ctx : Context) (right : Segment) (before after : List Token)
    (i : Nat) (hscan : Token.scan right = before ++ .close i :: after) (f : Frame)
    (frames : List Frame) (hopen : (before.foldl (step ctx) {}).frames = f :: frames)
    (op : Opcode) (hentry : f.entry = some op) (herror : f.operandError = false)
    (indices : List Nat)
    (hrefused : op.packOperand (f.call.arguments.map (·.value)) f.parameters.length =
      .error indices) :
    ∃ problems : List Problem, List.Forall₂ ((f.closed i).Blames op) indices problems ∧
      step ctx (before.foldl (step ctx) {}) (.close i) =
        ({ before.foldl (step ctx) {} with frames := frames }.reportAll problems).push
          (.call (f.closed i) f.parameters.reverse []) ∧
      (f.closed i).operand = none ∧ (f.closed i).outputs = none ∧
      (before.foldl (step ctx) {}).problems.reverse ++ problems <+:
        (read ctx right).problems.reverse ∧
      ∃ number, ctx.table.lookup f.call.name = some (number, op) ∧
        f.call.opcode = some number := by
  have hchecked := (checked_foldl ctx before).frames f (by rw [hopen]; exact List.mem_cons_self)
  obtain ⟨number, hlookup, hnumber, harity⟩ := hchecked.opens op hentry herror
  obtain ⟨problems, hclose, hblames⟩ :=
    f.close_of_refused i (!frames.isEmpty) hentry herror harity hrefused
  have hstep : step ctx (before.foldl (step ctx) {}) (.close i) =
      ({ before.foldl (step ctx) {} with frames := frames }.reportAll problems).push
        (.call (f.closed i) f.parameters.reverse []) := by
    simp only [step, Reading.close, hopen, hclose]
  refine ⟨problems, hblames, hstep, hchecked.operand, hchecked.outputs, ?_, number, hlookup,
    hnumber⟩
  have hreported := read_problems ctx hscan
  rw [hstep, push_problems] at hreported
  simpa [reportAll] using hreported

theorem close_reports_refused_loops :
    let ctx : Context := ⟨Table.builtin, {}, []⟩
    let right : Segment := ⟨2, " loop-n<300 0>(1 1 1 1 1 1 1 1 1 1 1 1 1 1 1 1)".toList⟩
    let before := (Token.scan right).dropLast
    Token.scan right = before ++ [.close 48] ∧
      (read ctx right).problems.reverse.map (fun p => (p.code, p.position)) =
        [(.outOfRangeInputs, ⟨3, 48⟩), (.outOfRangeOperandArgs, ⟨10, 12⟩),
          (.outOfRangeOperandArgs, ⟨14, 14⟩)] ∧
      ∃ f op problems, (before.foldl (step ctx) {}).frames = [f] ∧ f.entry = some op ∧
        f.operandError = false ∧
        op.packOperand (f.call.arguments.map (·.value)) f.parameters.length =
          .error [0, 1, 2] ∧
        List.Forall₂ ((f.closed 48).Blames op) [0, 1, 2] problems ∧
        (before.foldl (step ctx) {}).problems.reverse ++ problems <+:
          (read ctx right).problems.reverse := by
  intro ctx right before
  have hscan : Token.scan right = before ++ [.close 48] := by decide +kernel
  have hframes : (before.foldl (step ctx) {}).frames.map (fun f => (f.operandError,
      f.entry.map fun op => Field.rejected (OperandItem.fill f.parameters.length op.operand
        (f.call.arguments.map (·.value))))) = [(false, some [0, 1, 2])] := by decide +kernel
  obtain ⟨f, hf, hfields⟩ := List.map_eq_singleton_iff.mp hframes
  rw [Prod.mk.injEq, Option.map_eq_some_iff] at hfields
  obtain ⟨herror, op, hentry, hrejected⟩ := hfields
  have hrefused : op.packOperand (f.call.arguments.map (·.value)) f.parameters.length =
      .error [0, 1, 2] := Field.pack_eq_error_iff.mpr ⟨hrejected.symm, by decide⟩
  obtain ⟨problems, hblames, -, -, -, hreported, -⟩ := close_reports_refused ctx right before [] 48
    hscan f [] hf op hentry herror [0, 1, 2] hrefused
  exact ⟨hscan, by decide +kernel, f, op, problems, hf, hentry, herror, hrefused, hblames,
    hreported⟩

end Reading

end Wordcode
