import Mathlib
import Wordcode.Document.Token
import Wordcode.Literal
import Wordcode.Opcode.Basic

namespace Wordcode

namespace Token

theorem isWordChar_bounds {c : Char} (h : isWordChar c = true) :
    45 ≤ c.toNat ∧ c.toNat ≤ 122 := by
  simp only [isWordChar, Bool.or_eq_true, beq_iff_eq] at h
  rcases h with ((ha | rfl) | rfl) | rfl
  · simp [Char.isAlphanum, Char.isAlpha, Char.isUpper, Char.isLower, Char.isDigit,
      UInt32.le_iff_toNat_le] at ha
    omega
  · decide
  · decide
  · decide

theorem isWordChar_ne {c d : Char} (h : isWordChar c = true)
    (hd : d ∈ ['(', ')', '<', '>', ',', ':', ';', '*', '/']) : c ≠ d := by
  rintro rfl
  revert h
  fin_cases hd <;> decide

theorem isBlank_of_isWordChar {c : Char} (h : isWordChar c = true) : isBlank c = false := by
  have hn := isWordChar_bounds h
  simp only [isBlank, Bool.or_eq_false_iff, Bool.and_eq_false_iff, decide_eq_false_iff_not,
    beq_eq_false_iff_ne]
  omega

theorem isWordChar_of_isDigit {c : Char} (h : c.isDigit = true) : isWordChar c = true := by
  simp [isWordChar, Char.isAlphanum, h]

end Token

/-- Something that the scanner takes for one word. -/
def IsWord (cs : List Char) : Prop :=
  cs ≠ [] ∧ ∀ c ∈ cs, Token.isWordChar c = true

theorem isWordChar_of_isLower {c : Char} (h : isLower c = true) : Token.isWordChar c = true := by
  simp only [isLower, Bool.and_eq_true, decide_eq_true_eq] at h
  have hl : c.isLower = true := by
    simp only [Char.isLower, Bool.and_eq_true, decide_eq_true_eq]
    exact h
  simp [Token.isWordChar, Char.isAlphanum, Char.isAlpha, hl]

theorem isName_chars {word : String} (h : isName word = true) :
    word.toList ≠ [] ∧
      ∀ c ∈ word.toList, isLower c = true ∨ c.isDigit = true ∨ c = '-' := by
  unfold isName at h
  cases hw : word.toList with
  | nil => simp [hw] at h
  | cons c rest =>
    simp only [hw, Bool.and_eq_true, List.all_eq_true, Bool.or_eq_true, beq_iff_eq] at h
    refine ⟨by simp, ?_⟩
    intro d hd
    rcases List.mem_cons.mp hd with rfl | hm
    · exact .inl h.1
    · rcases h.2 d hm with (hl | hg) | hs
      · exact .inl hl
      · exact .inr (.inl hg)
      · exact .inr (.inr hs)

theorem isWord_of_isName {word : String} (h : isName word = true) : IsWord word.toList := by
  obtain ⟨hne, hc⟩ := isName_chars h
  refine ⟨hne, ?_⟩
  intro c hm
  rcases hc c hm with hl | hg | rfl
  · exact isWordChar_of_isLower hl
  · exact Token.isWordChar_of_isDigit hg
  · decide

theorem isWord_of_named {name : String} (h : name = "_" ∨ isName name = true) :
    IsWord name.toList := by
  rcases h with rfl | hn
  · have hl : "_".toList = ['_'] := rfl
    rw [hl]
    simp [IsWord]
    decide
  · exact isWord_of_isName hn

theorem isWordChar_of_toLower {c : Char} (h : Token.isWordChar c.toLower = true) :
    Token.isWordChar c = true := by
  unfold Char.toLower at h
  split at h
  · rename_i hu
    have : c.isUpper = true := by simpa [Char.isUpper] using hu
    simp [Token.isWordChar, Char.isAlphanum, Char.isAlpha, this]
  · exact h

theorem isWordChar_of_normalizeChar {c : Char}
    (h : Token.isWordChar (normalizeChar c) = true) : Token.isWordChar c = true := by
  unfold normalizeChar at h
  split at h
  · simp_all [Token.isWordChar]
  · exact isWordChar_of_toLower h

theorem isWord_of_normalize {name word : String} (hw : Opcode.canName word = true)
    (h : normalize name = normalize word) : IsWord name.toList := by
  rw [Opcode.canName, ← h] at hw
  obtain ⟨hne, hc⟩ := isWord_of_isName hw
  simp only [normalize, String.toList_ofList] at hne hc
  refine ⟨fun he => hne (by simp [he]), ?_⟩
  intro c hm
  exact isWordChar_of_normalizeChar (hc _ (List.mem_map_of_mem hm))

theorem isWord_of_canName {word : String} (h : Opcode.canName word = true) :
    IsWord word.toList :=
  isWord_of_normalize h rfl

end Wordcode
