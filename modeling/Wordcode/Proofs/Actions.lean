import Wordcode.Decompile.Replay
import Wordcode.Proofs.Emission
import Wordcode.Proofs.Spelling

namespace Wordcode

/-- What a word does. The place of a constant does not matter, only its value. -/
inductive Action where
  | constant (n : Nat)
  | slot (index : Nat)
  | run (opcode operand : UInt16)
deriving DecidableEq, Repr

def Instruction.action? (memory : UInt16) (constant? : Nat → Option Nat) (i : Instruction) :
    Option Action :=
  if i.opcode = memory then
    match Region.ofOperand i.operand with
    | (.constant, index) => (constant? index).map .constant
    | (.stack, index) => some (.slot index)
  else some (.run i.opcode i.operand)

def Bytecode.constant? (code : Bytecode) (index : Nat) : Option Nat :=
  (code.constant index).toOption

theorem Bytecode.constant?_eq_some {code : Bytecode} {index n : Nat} :
    code.constant? index = some n ↔ code.constant index = .ok n := by
  unfold constant?
  cases code.constant index <;> simp [Except.toOption]

theorem Bytecode.constant?_le {code : Bytecode} {index n : Nat}
    (h : code.constant? index = some n) : n ≤ Literal.maxValue := by
  rw [constant?_eq_some, constant] at h
  split at h
  · unfold readConstant at h
    split at h
    · rename_i hv
      simp only [Except.ok.injEq] at h
      subst h
      exact Literal.read_le hv
    · simp at h
  · simp at h

theorem Region.ofOperand_le (operand : UInt16) : (ofOperand operand).2 ≤ Instruction.maxIndex := by
  have hb := operand.toNat_lt
  simp only [ofOperand, Instruction.maxIndex]
  omega

namespace Instruction

variable {memory : UInt16} {constant? : Nat → Option Nat} {i : Instruction}

theorem action?_constant {index n : Nat} (hi : i.opcode = memory)
    (hr : Region.ofOperand i.operand = (.constant, index)) (hc : constant? index = some n) :
    i.action? memory constant? = some (.constant n) := by
  simp [action?, hi, hr, hc]

theorem action?_stack {index : Nat} (hi : i.opcode = memory)
    (hr : Region.ofOperand i.operand = (.stack, index)) :
    i.action? memory constant? = some (.slot index) := by
  simp [action?, hi, hr]

theorem action?_run (hi : i.opcode ≠ memory) :
    i.action? memory constant? = some (.run i.opcode i.operand) := by
  simp [action?, hi]

theorem action?_eq_constant {n : Nat} (h : i.action? memory constant? = some (.constant n)) :
    i.opcode = memory ∧ ∃ index, Region.ofOperand i.operand = (.constant, index) ∧
      constant? index = some n := by
  unfold action? at h
  split at h
  · rename_i hi
    refine ⟨hi, ?_⟩
    split at h
    · rename_i index hr
      simp only [Option.map_eq_some_iff, Action.constant.injEq, exists_eq_right] at h
      exact ⟨index, hr, h⟩
    · simp at h
  · simp at h

theorem action?_eq_slot {index : Nat} (h : i.action? memory constant? = some (.slot index)) :
    i.opcode = memory ∧ Region.ofOperand i.operand = (.stack, index) := by
  unfold action? at h
  split at h
  · rename_i hi
    refine ⟨hi, ?_⟩
    split at h
    · simp at h
    · rename_i k hr
      simp only [Option.some.injEq, Action.slot.injEq] at h
      rw [hr, h]
  · simp at h

theorem action?_eq_run {opcode operand : UInt16}
    (h : i.action? memory constant? = some (.run opcode operand)) :
    opcode ≠ memory ∧ i = ⟨opcode, operand⟩ := by
  unfold action? at h
  split at h
  · split at h
    · simp at h
    · simp at h
  · rename_i hi
    simp only [Option.some.injEq, Action.run.injEq] at h
    obtain ⟨rfl, rfl⟩ := h
    exact ⟨hi, rfl⟩

theorem action?_mono {more? : Nat → Option Nat} {a : Action}
    (hc : ∀ index n, constant? index = some n → more? index = some n)
    (h : i.action? memory constant? = some a) : i.action? memory more? = some a := by
  cases a with
  | constant n =>
    obtain ⟨hi, index, hr, hn⟩ := action?_eq_constant h
    exact action?_constant hi hr (hc index n hn)
  | slot index =>
    obtain ⟨hi, hr⟩ := action?_eq_slot h
    exact action?_stack hi hr
  | run opcode operand =>
    obtain ⟨hne, rfl⟩ := action?_eq_run h
    exact action?_run hne

end Instruction

def Performs (memory : UInt16) (constant? : Nat → Option Nat) :
    List Instruction → List Action → Prop :=
  List.Forall₂ fun i a => i.action? memory constant? = some a

theorem Performs.append {memory : UInt16} {constant? : Nat → Option Nat}
    {is js : List Instruction} {as bs : List Action} (h : Performs memory constant? is as)
    (h' : Performs memory constant? js bs) : Performs memory constant? (is ++ js) (as ++ bs) :=
  List.rel_append h h'

theorem Performs.mono {memory : UInt16} {constant? more? : Nat → Option Nat}
    (hc : ∀ index n, constant? index = some n → more? index = some n) {is : List Instruction}
    {as : List Action} (h : Performs memory constant? is as) : Performs memory more? is as :=
  h.imp fun _ _ => Instruction.action?_mono hc

theorem toList_slotName (slot : Nat) :
    (Decompile.slotName slot).toList = 's' :: 'l' :: 'o' :: 't' :: '-' :: (decimal slot).toList := by
  simp [Decompile.slotName]

theorem isName_slotName (slot : Nat) : isName (Decompile.slotName slot) = true := by
  have hd : (decimal slot).toList.all (fun c => isLower c || c.isDigit || c == '-') = true := by
    rw [List.all_eq_true]
    intro c hc
    simp [isDigit_of_mem_decimal hc]
  rw [isName, toList_slotName]
  simp only [List.all_cons, hd]
  decide

theorem slotName_injective {i j : Nat} (h : Decompile.slotName i = Decompile.slotName j) :
    i = j := by
  have hl := congrArg String.toList h
  simp only [Decompile.slotName, String.toList_append, List.append_cancel_left_eq] at hl
  exact decimal_injective (String.toList_inj.mp hl)

theorem slotName_ne_underscore (slot : Nat) : Decompile.slotName slot ≠ "_" := by
  intro h
  have hl := congrArg String.toList h
  rw [toList_slotName] at hl
  simp at hl

def numeral (v : Nat) : String :=
  if v = Literal.maxValue then "max-uint256" else decimal v

theorem isWord_numeral (v : Nat) : IsWord (numeral v).toList := by
  unfold numeral
  split
  · exact isWord_of_isName (by decide)
  · exact isWord_decimal v

theorem read_numeral {v : Nat} (h : v ≤ Literal.maxValue) : Literal.read (numeral v) = .ok v := by
  unfold numeral
  split
  · rename_i hv
    rw [hv]
    decide
  · exact Literal.read_decimal h

theorem numeral_ne_slotName (v slot : Nat) : numeral v ≠ Decompile.slotName slot := by
  intro h
  have hl := congrArg String.toList h
  rw [toList_slotName] at hl
  unfold numeral at hl
  split at hl
  · simp at hl
  · have hs : 's' ∈ (decimal v).toList := by simp [hl]
    exact absurd (isDigit_of_mem_decimal hs) (by decide)

namespace Term

/-- The terms stand for the actions, and reads of slots are of readable ones. Calls are not of the
memory opcode, whose reads are written as values and names. -/
inductive Stands (table : Table) (memory : UInt16) (readable : Nat → Prop) :
    Bool → List Term → Nat → List Action → Prop
  | nil {nested : Bool} : Stands table memory readable nested [] 0 []
  | literal {nested : Bool} {v n : Nat} {rest : List Term} {as : List Action} :
      v ≤ Literal.maxValue → Stands table memory readable nested rest n as →
      Stands table memory readable nested (.literal (numeral v) :: rest) (1 + n)
        (.constant v :: as)
  | reference {nested : Bool} {k n : Nat} {rest : List Term} {as : List Action} :
      readable k → Stands table memory readable nested rest n as →
      Stands table memory readable nested (.reference (Decompile.slotName k) :: rest) (1 + n)
        (.slot k :: as)
  | call {nested : Bool} {arguments : List Nat} {params rest : List Term}
      {number operand : UInt16} {op : Opcode} {outputs k n : Nat} {ps as : List Action} :
      table.get? number = some op → number ≠ memory →
      op.Accepts arguments params.length operand outputs → (nested = true → outputs = 1) →
      Stands table memory readable true params k ps →
      Stands table memory readable nested rest n as →
      Stands table memory readable nested (.call op.name arguments params :: rest) (outputs + n)
        (ps ++ .run number operand :: as)

namespace Stands

variable {table : Table} {memory : UInt16} {readable : Nat → Prop} {nested : Bool}

theorem mono {more : Nat → Prop} (hm : ∀ k, readable k → more k) {ts : List Term} {n : Nat}
    {as : List Action} (h : Stands table memory readable nested ts n as) :
    Stands table memory more nested ts n as := by
  induction h with
  | nil => exact .nil
  | literal hv _ ih => exact .literal hv ih
  | reference hk _ ih => exact .reference (hm _ hk) ih
  | call hg hn ha ho _ _ ihp ih => exact .call hg hn ha ho ihp ih

theorem cons {t : Term} {ts : List Term} {n m : Nat} {as bs : List Action} {b : Bool}
    (h : Stands table memory readable b [t] n as) (hone : nested = true → n = 1)
    (hs : Stands table memory readable nested ts m bs) :
    Stands table memory readable nested (t :: ts) (n + m) (as ++ bs) := by
  cases h with
  | literal hv hr =>
    cases hr with
    | nil => exact .literal hv hs
  | reference hk hr =>
    cases hr with
    | nil => exact .reference hk hs
  | call hg hn ha ho hp hr =>
    cases hr with
    | nil =>
      rw [List.append_assoc]
      exact .call hg hn ha hone hp hs

theorem append {ts us : List Term} {n m : Nat} {as bs : List Action}
    (h : Stands table memory readable nested ts n as)
    (hu : Stands table memory readable nested us m bs) :
    Stands table memory readable nested (ts ++ us) (n + m) (as ++ bs) := by
  induction h with
  | nil => simpa using hu
  | literal hv _ ih =>
    rw [Nat.add_assoc]
    exact .literal hv (ih hu)
  | reference hk _ ih =>
    rw [Nat.add_assoc]
    exact .reference hk (ih hu)
  | call hg hn ha ho hp _ _ ih =>
    rw [Nat.add_assoc, List.append_assoc]
    exact .call hg hn ha ho hp (ih hu)

theorem readable_terms (hv : table.Valid) {bound pending : List String}
    (hk : ∀ k, readable k → Decompile.slotName k ∈ bound)
    (hs : ∀ name ∈ bound ++ pending, ∃ k, name = Decompile.slotName k) {ts : List Term} {n : Nat}
    {as : List Action} (h : Stands table memory readable nested ts n as) :
    Term.Readable table bound pending nested ts n := by
  induction h with
  | nil => exact .nil
  | @literal _ v _ _ _ hle _ ih =>
    have hne : numeral v ∉ bound ++ pending := by
      intro hm
      obtain ⟨k, he⟩ := hs _ hm
      exact numeral_ne_slotName v k he
    rw [List.mem_append, not_or] at hne
    exact .literal (isWord_numeral v) (read_numeral hle) hne.1 hne.2 ih
  | @reference _ k _ _ _ hr _ ih =>
    exact .reference (isWord_of_isName (isName_slotName k)) (hk k hr) ih
  | call hg _ ha ho _ _ ihp ih =>
    have hf := hv.sound _ _ hg
    exact .call (isWord_of_canName (Opcode.fault?_eq_none_iff.mp hf).1) (hv.found _ _ hg) ha ho ihp ih

end Stands

end Term

end Wordcode
