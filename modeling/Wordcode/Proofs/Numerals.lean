import Wordcode.Proofs.Words

namespace Wordcode

theorem toList_decimal (n : Nat) : (decimal n).toList = Nat.toDigits 10 n := by
  simp [decimal]

theorem isDigit_of_mem_decimal {n : Nat} {c : Char} (h : c ∈ (decimal n).toList) :
    c.isDigit = true := by
  rw [toList_decimal] at h
  exact Nat.isDigit_of_mem_toDigits (by decide) (by decide) h

theorem decimal_ne_nil (n : Nat) : (decimal n).toList ≠ [] := by
  rw [toList_decimal]
  exact Nat.toDigits_ne_nil

theorem isWord_decimal (n : Nat) : IsWord (decimal n).toList :=
  ⟨decimal_ne_nil n, fun _ h => Token.isWordChar_of_isDigit (isDigit_of_mem_decimal h)⟩

theorem decimal_injective : Function.Injective decimal := by
  intro m n h
  have hd : Nat.toDigits 10 m = Nat.toDigits 10 n := by
    rw [← toList_decimal, ← toList_decimal, h]
  rw [← Nat.ofDigitChars_ten_toDigits (n := m), hd, Nat.ofDigitChars_ten_toDigits]

theorem digitValue?_of_isDigit {c : Char} (h : c.isDigit = true) :
    digitValue? c = some (c.toNat - '0'.toNat) := by
  have hc : '0' ≤ c ∧ c ≤ '9' := by
    simp only [Char.isDigit, Bool.and_eq_true, decide_eq_true_eq] at h
    exact h
  rw [digitValue?, if_pos hc]

theorem isDecimal_of_isDigit {c : Char} (h : c.isDigit = true) : isDecimal c = true := by
  have hb := Char.isDigit_iff_toNat.mp h
  rw [isDecimal, isDigit, digitValue?_of_isDigit h]
  simp at hb ⊢
  omega

theorem isDigit_of_isDecimal {c : Char} (h : isDecimal c = true) : c.isDigit = true := by
  simp only [isDecimal, isDigit, digitValue?] at h
  split at h
  · rename_i hc
    simp only [Char.isDigit, Bool.and_eq_true, decide_eq_true_eq]
    exact hc
  split at h
  · simp at h
  split at h
  · simp at h
  · simp at h

theorem ofDigits_of_isDigit {cs : List Char} (h : ∀ c ∈ cs, c.isDigit = true) (m : Nat) :
    cs.foldl (fun n c => n * 10 + (digitValue? c).getD 0) m = Nat.ofDigitChars 10 cs m := by
  induction cs generalizing m with
  | nil => rfl
  | cons c cs ih =>
    have hc : digitValue? c = some (c.toNat - '0'.toNat) :=
      digitValue?_of_isDigit (h c (by simp))
    rw [List.foldl_cons, hc, ih (fun d hd => h d (by simp [hd])), Nat.ofDigitChars_cons,
      Option.getD_some, Nat.mul_comm]

theorem ofDigits_decimal (n : Nat) : ofDigits 10 (decimal n).toList = n := by
  rw [ofDigits, ofDigits_of_isDigit (fun _ h => isDigit_of_mem_decimal h), toList_decimal,
    Nat.ofDigitChars_ten_toDigits]

theorem isWordChar_of_digit {base : Nat} {c : Char} (h : isDigit base c = true) :
    Token.isWordChar c = true := by
  have hv : (digitValue? c).isSome = true := by
    unfold isDigit at h
    cases hd : digitValue? c with
    | none => simp [hd] at h
    | some v => rfl
  have hc : c.isDigit = true ∨ c.isLower = true ∨ c.isUpper = true := by
    unfold digitValue? at hv
    simp only [Char.isDigit, Char.isLower, Char.isUpper, Bool.and_eq_true, decide_eq_true_eq]
    split at hv
    · rename_i hd
      exact .inl hd
    split at hv
    · rename_i hl
      exact .inr (.inl ⟨hl.1, hl.2.trans (by decide)⟩)
    split at hv
    · rename_i hu
      exact .inr (.inr ⟨hu.1, hu.2.trans (by decide)⟩)
    · cases hv
  rcases hc with hd | hl | hu
  · exact Token.isWordChar_of_isDigit hd
  · simp [Token.isWordChar, Char.isAlphanum, Char.isAlpha, hl]
  · simp [Token.isWordChar, Char.isAlphanum, Char.isAlpha, hu]

namespace Literal

theorem ofChars?_digits {cs : List Char} (hne : cs ≠ []) (h : ∀ c ∈ cs, c.isDigit = true) :
    ofChars? cs = some (.decimal cs) := by
  have hs : cs.span isDecimal = (cs, []) := by
    have ha : ∀ c ∈ cs, isDecimal c = true := fun c hc => isDecimal_of_isDigit (h c hc)
    rw [List.span_eq_takeWhile_dropWhile, List.takeWhile_eq_self_iff.mpr ha,
      List.dropWhile_eq_nil_iff.mpr ha]
  unfold ofChars?
  split
  · exact absurd (h 'x' (by simp)) (by decide)
  · exact absurd (h 'b' (by simp)) (by decide)
  · rw [hs]
    cases cs with
    | nil => exact absurd rfl hne
    | cons c cs => rfl

theorem ofChars?_decimal (n : Nat) :
    ofChars? (Wordcode.decimal n).toList = some (.decimal (Wordcode.decimal n).toList) :=
  ofChars?_digits (decimal_ne_nil n) (fun _ h => isDigit_of_mem_decimal h)

theorem isNumeric_decimal (n : Nat) : isNumeric (Wordcode.decimal n) = true := by
  rw [isNumeric, ofChars?_decimal]
  rfl

theorem toLower_of_isDigit {c : Char} (h : c.isDigit = true) : c.toLower = c := by
  have hb := Char.isDigit_iff_toNat.mp h
  unfold Char.toLower
  rw [dif_neg]
  simp [UInt32.le_iff_toNat_le] at hb ⊢
  omega

theorem isSentinel_decimal (n : Nat) : isSentinel (Wordcode.decimal n) = false := by
  have hl : (Wordcode.decimal n).toList.map Char.toLower = (Wordcode.decimal n).toList := by
    conv_rhs => rw [← List.map_id (Wordcode.decimal n).toList]
    exact List.map_congr_left fun c hc => toLower_of_isDigit (isDigit_of_mem_decimal hc)
  have hd : ∀ w : String, (∃ c ∈ w.toList, c.isDigit = false) →
      (w.toList == (Wordcode.decimal n).toList) = false := by
    rintro w ⟨c, hc, hf⟩
    rw [beq_eq_false_iff_ne]
    intro he
    rw [he] at hc
    rw [isDigit_of_mem_decimal hc] at hf
    exact Bool.noConfusion hf
  simp only [isSentinel, hl, List.any_cons, List.any_nil, Bool.or_false, Bool.or_eq_false_iff]
  exact ⟨hd _ ⟨'m', by decide, by decide⟩, hd _ ⟨'m', by decide, by decide⟩,
    hd _ ⟨'i', by decide, by decide⟩⟩

theorem read_decimal {n : Nat} (h : n ≤ maxValue) : read (Wordcode.decimal n) = .ok n := by
  rw [read, isSentinel_decimal, ofChars?_decimal]
  simp [ofDigits_decimal, h, denotation]

theorem isNumeral_of_read {word : String} {n : Nat} (h : read word = .ok n) :
    (isNumeric word || isSentinel word) = true := by
  unfold read at h
  split at h
  · rename_i hs
    rw [hs, Bool.or_true]
  · split at h
    · simp at h
    · rename_i l hl
      simp [isNumeric, hl]

theorem isWordChar_of_digits? {base : Nat} {cs ds : List Char} (h : digits? base cs = some ds) :
    ∀ c ∈ cs, Token.isWordChar c = true := by
  unfold digits? at h
  split at h
  · cases h
  · rename_i hd
    intro c hc
    simp at hd
    exact isWordChar_of_digit (hd.2 c hc)

theorem isWordChar_of_span {cs whole rest : List Char} (h : cs.span isDecimal = (whole, rest))
    (hrest : ∀ c ∈ rest, Token.isWordChar c = true) : ∀ c ∈ cs, Token.isWordChar c = true := by
  rw [List.span_eq_takeWhile_dropWhile, Prod.mk.injEq] at h
  intro c hc
  rw [← List.takeWhile_append_dropWhile (p := isDecimal) (l := cs), h.1, h.2] at hc
  rcases List.mem_append.mp hc with hc | hc
  · rw [← h.1] at hc
    exact isWordChar_of_digit (List.mem_takeWhile_imp hc)
  · exact hrest c hc

theorem isWordChar_of_ofChars? {cs : List Char} {l : Literal} (h : ofChars? cs = some l) :
    ∀ c ∈ cs, Token.isWordChar c = true := by
  unfold ofChars? at h
  split at h
  · obtain ⟨ds, hd, -⟩ := Option.map_eq_some_iff.mp h
    simpa [List.forall_mem_cons] using ⟨by decide, by decide, isWordChar_of_digits? hd⟩
  · obtain ⟨ds, hd, -⟩ := Option.map_eq_some_iff.mp h
    simpa [List.forall_mem_cons] using ⟨by decide, by decide, isWordChar_of_digits? hd⟩
  · have hexp : ∀ {whole fraction rest : List Char}, scientific? whole fraction rest = some l →
        ∀ c ∈ 'e' :: rest, Token.isWordChar c = true := by
      intro whole fraction rest hs
      obtain ⟨ds, hd, -⟩ := Option.map_eq_some_iff.mp hs
      rw [List.forall_mem_cons]
      exact ⟨by decide, isWordChar_of_digits? hd⟩
    split at h
    · cases h
    · rename_i hs
      exact isWordChar_of_span hs (by simp)
    · rename_i hs
      exact isWordChar_of_span hs (hexp h)
    · rename_i hs
      split at h
      · cases h
      · rename_i hs'
        refine isWordChar_of_span hs ?_
        rw [List.forall_mem_cons]
        exact ⟨by decide, isWordChar_of_span hs' (hexp h)⟩
      · cases h
    · cases h

theorem isWord_of_read {word : String} {n : Nat} (h : read word = .ok n) :
    IsWord word.toList := by
  unfold read at h
  split at h
  · rename_i hs
    simp only [isSentinel, List.any_eq_true, beq_iff_eq] at hs
    obtain ⟨sentinel, hm, hs⟩ := hs
    have hall : (["max-uint256", "max_uint256", "infinity"].all fun w =>
        !w.toList.isEmpty && w.toList.all Token.isWordChar) = true := by cbv
    have hw := List.all_eq_true.mp hall sentinel hm
    rw [hs, Bool.and_eq_true, List.all_eq_true] at hw
    refine ⟨fun he => by simp [he] at hw, fun c hc => ?_⟩
    exact isWordChar_of_toLower (hw.2 _ (List.mem_map_of_mem hc))
  · split at h
    · cases h
    · rename_i l hl
      refine ⟨fun he => ?_, isWordChar_of_ofChars? hl⟩
      rw [he] at hl
      cases hl

theorem read_le {word : String} {n : Nat} (h : read word = .ok n) : n ≤ maxValue := by
  unfold read at h
  split at h
  · simp only [Except.ok.injEq] at h
    omega
  · split at h
    · simp at h
    · split at h
      · split at h
        · simp only [Except.ok.injEq] at h
          omega
        · simp at h
      · simp at h
      · simp at h

end Literal

theorem trimEnd_eq_self {cs : List Char} (h : ∀ c ∈ cs, isBlank c = false) : trimEnd cs = cs := by
  unfold trimEnd
  cases hr : cs.reverse with
  | nil => simpa using hr.symm
  | cons c rest =>
    have hc : isBlank c = false := h c (by rw [← List.mem_reverse, hr]; simp)
    rw [List.dropWhile_cons_of_neg (by simp [hc]), ← hr, List.reverse_reverse]

theorem trim_eq_self {cs : List Char} (h : ∀ c ∈ cs, isBlank c = false) : trim cs = cs := by
  unfold trim
  cases cs with
  | nil => rfl
  | cons c rest =>
    rw [List.dropWhile_cons_of_neg (by simp [h c (by simp)]), trimEnd_eq_self h]

theorem trimmed_eq_self {word : String} (h : IsWord word.toList) : trimmed word = word := by
  rw [trimmed, trim_eq_self fun c hc => Token.isBlank_of_isWordChar (h.2 c hc),
    String.ofList_toList]

theorem trimmed_decimal (n : Nat) : trimmed (decimal n) = decimal n :=
  trimmed_eq_self (isWord_decimal n)

end Wordcode
