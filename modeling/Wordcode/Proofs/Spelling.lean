import Mathlib
import Wordcode.Proofs.Numerals
import Wordcode.Proofs.Typing
import Wordcode.Script

namespace Wordcode

def spaced (words : List (List Char)) : List Char :=
  [' '].intercalate words

@[simp]
theorem spaced_nil : spaced [] = [] := rfl

@[simp]
theorem spaced_singleton (w : List Char) : spaced [w] = w :=
  List.intercalate_singleton

@[simp]
theorem spaced_cons_cons (w v : List Char) (words : List (List Char)) :
    spaced (w :: v :: words) = w ++ ' ' :: spaced (v :: words) := by
  simp [spaced, List.intercalate_cons_cons]

theorem toList_intercalate_blank (words : List String) :
    (" ".intercalate words).toList = spaced (words.map String.toList) := by
  rw [String.toList_intercalate]
  rfl

namespace Term

theorem texts_eq (done : List String) (ts : List Term) :
    texts done ts = done.reverse ++ ts.map text := by
  induction ts generalizing done with
  | nil => simp [texts]
  | cons t ts ih => simp [texts, ih]

def chars (t : Term) : List Char :=
  t.text.toList

def spell (ts : List Term) : List Char :=
  spaced (ts.map chars)

theorem toList_intercalate_texts (ts : List Term) :
    (" ".intercalate (texts [] ts)).toList = spell ts := by
  rw [texts_eq, List.reverse_nil, List.nil_append, toList_intercalate_blank, List.map_map]
  rfl

def argumentsChars (arguments : List Nat) : List Char :=
  if arguments.isEmpty then []
  else '<' :: spaced (arguments.map fun a => (decimal a).toList) ++ ['>']

theorem toList_argumentsText (arguments : List Nat) :
    (argumentsText arguments).toList = argumentsChars arguments := by
  unfold argumentsText argumentsChars
  split
  · rfl
  · rw [String.toList_append, String.toList_append, toList_intercalate_blank, List.map_map]
    rfl

@[simp]
theorem chars_literal (raw : String) : (literal raw).chars = raw.toList := by
  rw [chars, text]

@[simp]
theorem chars_reference (name : String) : (reference name).chars = name.toList := by
  rw [chars, text]

@[simp]
theorem chars_call (name : String) (arguments : List Nat) (params : List Term) :
    (call name arguments params).chars =
      name.toList ++ argumentsChars arguments ++ '(' :: spell params ++ [')'] := by
  simp only [chars, text, String.toList_append, toList_argumentsText, toList_intercalate_texts]
  simp

/-- Terms whose text is read back as it is: references are to names in `bound`, a numeral is
spelled like no name in reach, and calls agree with their opcodes. The number is that of their
outputs. -/
inductive Readable (table : Table) (bound pending : List String) :
    Bool → List Term → Nat → Prop
  | nil {nested : Bool} : Readable table bound pending nested [] 0
  | literal {nested : Bool} {raw : String} {v n : Nat} {rest : List Term} : IsWord raw.toList →
      Literal.read raw = .ok v → raw ∉ bound → raw ∉ pending →
      Readable table bound pending nested rest n →
      Readable table bound pending nested (.literal raw :: rest) (1 + n)
  | reference {nested : Bool} {name : String} {n : Nat} {rest : List Term} :
      IsWord name.toList → name ∈ bound → Readable table bound pending nested rest n →
      Readable table bound pending nested (.reference name :: rest) (1 + n)
  | call {nested : Bool} {name : String} {arguments : List Nat} {params rest : List Term}
      {number operand : UInt16} {op : Opcode} {outputs k n : Nat} : IsWord name.toList →
      table.lookup name = some (number, op) →
      op.Accepts arguments params.length operand outputs → (nested = true → outputs = 1) →
      Readable table bound pending true params k →
      Readable table bound pending nested rest n →
      Readable table bound pending nested (.call name arguments params :: rest) (outputs + n)

end Term

/-- Text as it stands on the right of a statement: it ends at the depth of parentheses at which it
starts. -/
structure IsPlain (cs : List Char) : Prop where
  chars : ∀ c ∈ cs, Token.isWordChar c = true ∨ c ∈ [' ', '<', '>', '(', ')']
  depth : ∀ d, cs.foldl Segment.parens d = d

namespace IsPlain

theorem nil : IsPlain [] :=
  ⟨by simp, fun _ => rfl⟩

theorem append {cs ds : List Char} (h : IsPlain cs) (h' : IsPlain ds) : IsPlain (cs ++ ds) := by
  refine ⟨?_, ?_⟩
  · intro c hc
    rcases List.mem_append.mp hc with hc | hc
    · exact h.chars c hc
    · exact h'.chars c hc
  · intro d
    rw [List.foldl_append, h.depth, h'.depth]

theorem cons {c : Char} {cs : List Char}
    (hc : Token.isWordChar c = true ∨ c ∈ [' ', '<', '>']) (h : IsPlain cs) :
    IsPlain (c :: cs) := by
  have hne : c ≠ '(' ∧ c ≠ ')' := by
    rcases hc with hw | hm
    · exact ⟨Token.isWordChar_ne hw (by simp), Token.isWordChar_ne hw (by simp)⟩
    · fin_cases hm <;> decide
  refine ⟨?_, ?_⟩
  · intro e he
    rcases List.mem_cons.mp he with rfl | he
    · rcases hc with hw | hm
      · exact .inl hw
      · right
        fin_cases hm <;> decide
    · exact h.chars e he
  · intro d
    rw [List.foldl_cons]
    simp [Segment.parens, hne.1, hne.2, h.depth]

theorem of_isWord {cs : List Char} (h : IsWord cs) : IsPlain cs := by
  obtain ⟨-, hw⟩ := h
  induction cs with
  | nil => exact nil
  | cons c cs ih => exact cons (.inl (hw c (by simp))) (ih fun d hd => hw d (by simp [hd]))

theorem paren {cs : List Char} (h : IsPlain cs) : IsPlain ('(' :: cs ++ [')']) := by
  refine ⟨?_, ?_⟩
  · intro c hc
    simp only [List.cons_append, List.mem_cons, List.mem_append, List.not_mem_nil, or_false] at hc
    rcases hc with rfl | hc | rfl
    · simp
    · exact h.chars c hc
    · simp
  · intro d
    rw [List.cons_append, List.foldl_cons, List.foldl_append, h.depth]
    simp [Segment.parens]

theorem spaced {words : List (List Char)} (h : ∀ w ∈ words, IsPlain w) :
    IsPlain (spaced words) := by
  induction words with
  | nil => exact nil
  | cons w words ih =>
    have hw := h w (by simp)
    have hrest := ih fun v hv => h v (by simp [hv])
    cases words with
    | nil => simpa using hw
    | cons v words =>
      rw [spaced_cons_cons]
      exact hw.append (cons (.inr (by simp)) hrest)

theorem notMem {cs : List Char} (h : IsPlain cs) {c : Char} (hc : c ∈ [',', ':', ';', '*']) :
    c ∉ cs := by
  intro hm
  rcases h.chars c hm with hw | hb
  · refine Token.isWordChar_ne hw ?_ rfl
    fin_cases hc <;> decide
  · fin_cases hc <;> simp at hb

end IsPlain

theorem Term.isPlain_argumentsChars (arguments : List Nat) :
    IsPlain (argumentsChars arguments) := by
  unfold argumentsChars
  split
  · exact .nil
  · refine IsPlain.append (IsPlain.cons (.inr (by simp)) (.spaced ?_)) (.cons (.inr (by simp)) .nil)
    intro w hw
    obtain ⟨a, _, rfl⟩ := List.mem_map.mp hw
    exact .of_isWord (isWord_decimal a)

namespace Term.Readable

variable {table : Table} {bound pending : List String} {nested : Bool} {ts : List Term} {n : Nat}

theorem isPlain_chars (h : Readable table bound pending nested ts n) :
    ∀ t ∈ ts, IsPlain t.chars := by
  induction h with
  | nil => simp
  | literal hw _ _ _ _ ih =>
    rw [List.forall_mem_cons, chars_literal]
    exact ⟨.of_isWord hw, ih⟩
  | reference hw _ _ ih =>
    rw [List.forall_mem_cons, chars_reference]
    exact ⟨.of_isWord hw, ih⟩
  | call hw _ _ _ _ _ ihp ih =>
    rw [List.forall_mem_cons, chars_call, List.append_assoc]
    refine ⟨.append (.append (.of_isWord hw) (isPlain_argumentsChars _)) (.paren (.spaced ?_)), ih⟩
    intro w hm
    obtain ⟨t, ht, rfl⟩ := List.mem_map.mp hm
    exact ihp t ht

theorem isPlain (h : Readable table bound pending nested ts n) : IsPlain (spell ts) := by
  refine .spaced ?_
  intro w hm
  obtain ⟨t, ht, rfl⟩ := List.mem_map.mp hm
  exact h.isPlain_chars t ht

end Term.Readable

end Wordcode
