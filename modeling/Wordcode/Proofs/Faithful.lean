import Wordcode.Proofs.Codec
import Wordcode.Proofs.Recompile

namespace Wordcode

def Instruction.readsConstant (memory : UInt16) (i : Instruction) : Bool :=
  i.opcode = memory && (Region.ofOperand i.operand).1 = .constant

namespace Bytecode

/-- A word of each code: they are equal, or both read a constant and the values are equal. -/
def SameWord (memory : UInt16) (code code' : Bytecode) (i i' : Instruction) : Prop :=
  if i.readsConstant memory then
    i'.readsConstant memory = true ∧
      ∃ v, code.constant (Region.ofOperand i.operand).2 = .ok v ∧
        code'.constant (Region.ofOperand i'.operand).2 = .ok v
  else i' = i

def valueRead? (memory : UInt16) (code : Bytecode) (i : Instruction) : Option Nat :=
  if i.readsConstant memory then code.constant? (Region.ofOperand i.operand).2 else none

def valuesRead (memory : UInt16) (code : Bytecode) : List Nat :=
  (code.sources.flatMap Instruction.decode).filterMap (code.valueRead? memory)

variable {memory : UInt16} {code code' : Bytecode}

theorem sameWord_of_action? {i i' : Instruction} {a : Action}
    (h : i.action? memory code.constant? = some a)
    (h' : i'.action? memory code'.constant? = some a) : SameWord memory code code' i i' := by
  unfold SameWord
  cases a with
  | constant v =>
    obtain ⟨hi, index, hr, hv⟩ := Instruction.action?_eq_constant h
    obtain ⟨hi', index', hr', hv'⟩ := Instruction.action?_eq_constant h'
    rw [constant?_eq_some] at hv hv'
    rw [if_pos (by simp [Instruction.readsConstant, hi, hr])]
    exact ⟨by simp [Instruction.readsConstant, hi', hr'], v, by rw [hr]; exact hv,
      by rw [hr']; exact hv'⟩
  | slot k =>
    obtain ⟨hi, hr⟩ := Instruction.action?_eq_slot h
    obtain ⟨hi', hr'⟩ := Instruction.action?_eq_slot h'
    rw [if_neg (by simp [Instruction.readsConstant, hr])]
    have ho := Region.operand?_ofOperand i.operand
    have ho' := Region.operand?_ofOperand i'.operand
    rw [hr] at ho
    rw [hr', ho, Option.some.injEq] at ho'
    cases i
    cases i'
    simp_all
  | run opcode operand =>
    obtain ⟨hne, rfl⟩ := Instruction.action?_eq_run h
    obtain ⟨-, rfl⟩ := Instruction.action?_eq_run h'
    rw [if_neg (by simp [Instruction.readsConstant, hne])]

theorem sameWords_of_performs {is is' : List Instruction} {as : List Action}
    (h : Performs memory code.constant? is as) (h' : Performs memory code'.constant? is' as) :
    List.Forall₂ (SameWord memory code code') is is' := by
  induction h generalizing is' with
  | nil =>
    cases h'
    exact .nil
  | cons ha _ ih =>
    cases h' with
    | cons ha' hrest => exact .cons (sameWord_of_action? ha ha') (ih hrest)

theorem valuesRead_of_performs {is : List Instruction} {as : List Action}
    (h : Performs memory code.constant? is as) :
    is.filterMap (code.valueRead? memory) = Action.constants as := by
  induction h with
  | nil => rfl
  | @cons i a is as ha _ ih =>
    cases a with
    | constant v =>
      obtain ⟨hi, index, hr, hv⟩ := Instruction.action?_eq_constant ha
      have hvalue : code.valueRead? memory i = some v := by
        simp [valueRead?, Instruction.readsConstant, hi, hr, hv]
      simp [hvalue, ih, Action.constants]
    | slot k =>
      obtain ⟨-, hr⟩ := Instruction.action?_eq_slot ha
      have hvalue : code.valueRead? memory i = none := by
        simp [valueRead?, Instruction.readsConstant, hr]
      simp [hvalue, ih, Action.constants]
    | run opcode operand =>
      obtain ⟨hne, rfl⟩ := Instruction.action?_eq_run ha
      have hvalue : code.valueRead? memory ⟨opcode, operand⟩ = none := by
        simp [valueRead?, Instruction.readsConstant, hne]
      simp [hvalue, ih, Action.constants]

theorem sameSources_of_performs {sources : List (List UInt8)} {wss : List (List Instruction)}
    {ass : List (List Action)}
    (h : List.Forall₂ (fun bytes as => bytes.length % Instruction.size = 0 ∧
      Performs memory code.constant? (Instruction.decode bytes) as) sources ass)
    (h' : List.Forall₂ (Performs memory code'.constant?) wss ass) :
    List.Forall₂ (fun bytes bytes' => bytes'.length = bytes.length ∧
      List.Forall₂ (SameWord memory code code') (Instruction.decode bytes)
        (Instruction.decode bytes')) sources (wss.map Instruction.encode) := by
  induction h generalizing wss with
  | nil =>
    cases h'
    exact .nil
  | @cons bytes as sources ass hsource _ ih =>
    cases h' with
    | @cons ws _ wss _ hws hrest =>
      have hsame := sameWords_of_performs hsource.2 hws
      refine .cons ⟨?_, by rw [Instruction.decode_encode]; exact hsame⟩ (ih hrest)
      have hlen := congrArg List.length (Instruction.encode_decode hsource.1)
      rw [Instruction.length_encode] at hlen ⊢
      rw [← hlen, hsame.length_eq]

theorem valuesRead_eq {ass : List (List Action)}
    (h : List.Forall₂ (fun bytes as => bytes.length % Instruction.size = 0 ∧
      Performs memory code.constant? (Instruction.decode bytes) as) code.sources ass) :
    code.valuesRead memory = Action.constants ass.flatten := by
  unfold valuesRead
  generalize code.sources = sources at h
  induction h with
  | nil => rfl
  | cons hsource _ ih =>
    rw [List.flatMap_cons, List.filterMap_append, valuesRead_of_performs hsource.2, ih,
      List.flatten_cons, Action.constants_append]

theorem script_of_decompile {table : Table} {name text : String}
    (h : code.decompile table name = .ok text) :
    ∃ script, code.script table name = .ok script ∧ text = script.text := by
  unfold decompile at h
  cases hs : code.script table name with
  | error err =>
    rw [hs] at h
    cases h
  | ok script =>
    rw [hs] at h
    cases h
    exact ⟨script, rfl, rfl⟩

/-- Decompiled text is read without problems and gives the same words, up to the places of the
constants, of which only those that are read are left. The code may have come from anywhere. -/
theorem decompile_faithful (entries : List Opcode) (table : Table)
    (ht : Table.ofEntries entries = .ok table) (name : String) (number : UInt16) (op : Opcode)
    (hm : table.lookup name = some (number, op)) (code : Bytecode) (text : String)
    (h : code.decompile table name = .ok text) :
    (Document.read table text.toList).problems = [] ∧
      ∃ code', (Document.read table text.toList).compile table name = .ok code' ∧
        List.Forall₂ (fun bytes bytes' => bytes'.length = bytes.length ∧
          List.Forall₂ (SameWord number code code') (Instruction.decode bytes)
            (Instruction.decode bytes')) code.sources code'.sources ∧
        code'.constants = (code.valuesRead number).eraseDups.map decimal := by
  obtain ⟨script, hs, rfl⟩ := script_of_decompile h
  obtain ⟨hp, wss, pool, ass, hcompile, hgood, hvalues, hactions, hperfs⟩ :=
    code.recompile (Table.ofEntries_valid ht) hm hs
  refine ⟨hp, _, hcompile, ?_, ?_⟩
  · refine sameSources_of_performs hactions (hperfs.imp ?_)
    intro ws as hws
    refine hws.mono ?_
    intro i v hi
    rw [constant?_eq_some]
    exact hgood.knows _ i v hi
  · rw [valuesRead_eq hactions, ← hvalues]
    rfl

theorem decompile_faithful_outputs :
    let words : List Instruction := [⟨0, 1⟩, ⟨0, 5⟩, ⟨24, 0x132⟩, ⟨0, 2⟩, ⟨0, 7⟩, ⟨16, 1⟩]
    let code : Bytecode := ⟨[Instruction.encode words, []], ["0x01", "7", "1", "max-uint256"]⟩
    let text := "_ slot-1 _: call<1 3>(1 1), _: slot-1 ensure(max-uint256);\n;"
    code.decompile Table.builtin "read-memory" = .ok text ∧
      (Document.read Table.builtin text.toList).problems = [] ∧
      ∃ code', (Document.read Table.builtin text.toList).compile Table.builtin "read-memory" =
          .ok code' ∧
        List.Forall₂ (fun bytes bytes' => bytes'.length = bytes.length ∧
          List.Forall₂ (SameWord 0 code code') (Instruction.decode bytes)
            (Instruction.decode bytes')) code.sources code'.sources ∧
        code'.constants = ["1", decimal Literal.maxValue] := by
  intro words code text
  have h : code.decompile Table.builtin "read-memory" = .ok text := by decide +kernel
  have hread : (code.valuesRead 0).eraseDups = [1, Literal.maxValue] := by decide +kernel
  obtain ⟨op, hm, -⟩ := Table.lookup_builtin_memory
  have hf := decompile_faithful Builtin.opcodes Table.builtin Table.ofEntries_builtin
    "read-memory" 0 op hm code text h
  rw [hread] at hf
  exact ⟨h, hf⟩

end Bytecode

end Wordcode
