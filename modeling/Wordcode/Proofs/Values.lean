import Wordcode.Proofs.Numerals

namespace Wordcode

/-- The number that digits denote in positional notation, the most significant first. -/
def positional (base : Nat) (cs : List Char) : Nat :=
  Nat.ofDigits base (cs.reverse.map fun c => (digitValue? c).getD 0)

theorem positional_append (base : Nat) (cs ds : List Char) :
    positional base (cs ++ ds) = positional base cs * base ^ ds.length + positional base ds := by
  simp only [positional, List.reverse_append, List.map_append, Nat.ofDigits_append, List.length_map,
    List.length_reverse]
  ring

theorem positional_singleton (base : Nat) (c : Char) :
    positional base [c] = (digitValue? c).getD 0 := by
  simp [positional]

theorem ofDigits_eq_positional (base : Nat) (cs : List Char) :
    ofDigits base cs = positional base cs := by
  induction cs using List.reverseRecOn with
  | nil => rfl
  | append_singleton cs c ih =>
    rw [positional_append, positional_singleton, ← ih]
    simp [ofDigits]

theorem positional_replicate_zero (base n : Nat) :
    positional base (List.replicate n '0') = 0 := by
  induction n with
  | zero => rfl
  | succ n ih =>
    have hzero : (digitValue? '0').getD 0 = 0 := by decide
    rw [List.replicate_succ', positional_append, ih, positional_singleton, hzero, Nat.zero_mul]

theorem digitValue?_lt {base : Nat} {c : Char} (h : isDigit base c = true) :
    (digitValue? c).getD 0 < base := by
  unfold isDigit at h
  cases hd : digitValue? c with
  | none => simp [hd] at h
  | some v => simpa [hd] using h

def IsRun (base : Nat) (cs : List Char) : Prop :=
  cs ≠ [] ∧ ∀ c ∈ cs, isDigit base c = true

theorem positional_lt {cs : List Char} (h : ∀ c ∈ cs, isDigit 10 c = true) :
    positional 10 cs < 10 ^ cs.length := by
  have hlt : ∀ d ∈ cs.reverse.map fun c => (digitValue? c).getD 0, d < 10 := by
    intro d hd
    obtain ⟨c, hc, rfl⟩ := List.mem_map.mp hd
    exact digitValue?_lt (h c (List.mem_reverse.mp hc))
  simpa [positional] using Nat.ofDigits_lt_base_pow_length (by decide) hlt

namespace Literal

/-- The forms of numerals. -/
inductive Spells : List Char → Literal → Prop
  | hex {ds : List Char} (h : IsRun 16 ds) : Spells ('0' :: 'x' :: ds) (.hex ds)
  | binary {ds : List Char} (h : IsRun 2 ds) : Spells ('0' :: 'b' :: ds) (.binary ds)
  | decimal {ds : List Char} (h : IsRun 10 ds) : Spells ds (.decimal ds)
  | whole {whole exponent : List Char} (hw : IsRun 10 whole) (he : IsRun 10 exponent) :
      Spells (whole ++ 'e' :: exponent) (.scientific whole [] exponent)
  | point {whole fraction exponent : List Char} (hw : IsRun 10 whole) (hf : IsRun 10 fraction)
      (he : IsRun 10 exponent) :
      Spells (whole ++ '.' :: (fraction ++ 'e' :: exponent)) (.scientific whole fraction exponent)

def value : Literal → ℚ
  | .hex ds => positional 16 ds
  | .binary ds => positional 2 ds
  | .decimal ds => positional 10 ds
  | .scientific whole fraction exponent =>
    (positional 10 whole + positional 10 fraction / 10 ^ fraction.length) *
      10 ^ positional 10 exponent

def exponent : Literal → Nat
  | .scientific _ _ exponent => positional 10 exponent
  | _ => 0

theorem isRun_of_digits? {base : Nat} {cs ds : List Char} (h : digits? base cs = some ds) :
    cs = ds ∧ IsRun base ds := by
  unfold digits? at h
  split at h
  · cases h
  · rename_i hd
    cases h
    simp only [Bool.or_eq_true, not_or, List.isEmpty_iff, Bool.not_eq_true', Bool.not_eq_false,
      List.all_eq_true] at hd
    exact ⟨rfl, hd.1, hd.2⟩

theorem digits?_of_isRun {base : Nat} {ds : List Char} (h : IsRun base ds) :
    digits? base ds = some ds := by
  have hne : ds.isEmpty = false := List.isEmpty_eq_false_iff.mpr h.1
  have hall : ds.all (isDigit base) = true := List.all_eq_true.mpr h.2
  simp [digits?, hne, hall]

theorem span_of_isRun {whole : List Char} (hw : IsRun 10 whole) {rest : List Char}
    (hr : ∀ c ∈ rest.head?, isDecimal c = false) :
    (whole ++ rest).span isDecimal = (whole, rest) := by
  have htake : rest.takeWhile isDecimal = [] ∧ rest.dropWhile isDecimal = rest := by
    cases rest with
    | nil => exact ⟨rfl, rfl⟩
    | cons c rest =>
      have hc : isDecimal c = false := hr c rfl
      simp [hc]
  have hall : ∀ c ∈ whole, isDecimal c = true := hw.2
  rw [List.span_eq_takeWhile_dropWhile, List.takeWhile_append_of_pos hall,
    List.dropWhile_append_of_pos hall, htake.1, htake.2, List.append_nil]

theorem isRun_of_span {cs whole rest : List Char} (h : cs.span isDecimal = (whole, rest))
    (hne : whole ≠ []) : cs = whole ++ rest ∧ IsRun 10 whole := by
  rw [List.span_eq_takeWhile_dropWhile, Prod.mk.injEq] at h
  obtain ⟨rfl, rfl⟩ := h
  exact ⟨List.takeWhile_append_dropWhile.symm, hne, fun c hc => List.mem_takeWhile_imp hc⟩

theorem isRun_of_scientific? {whole fraction rest : List Char} {l : Literal}
    (h : scientific? whole fraction rest = some l) :
    IsRun 10 rest ∧ l = .scientific whole fraction rest := by
  obtain ⟨ds, hd, rfl⟩ := Option.map_eq_some_iff.mp h
  obtain ⟨rfl, hrun⟩ := isRun_of_digits? hd
  exact ⟨hrun, rfl⟩

theorem spells_of_ofChars? {cs : List Char} {l : Literal} (h : ofChars? cs = some l) :
    Spells cs l := by
  unfold ofChars? at h
  split at h
  · obtain ⟨ds, hd, rfl⟩ := Option.map_eq_some_iff.mp h
    obtain ⟨rfl, hrun⟩ := isRun_of_digits? hd
    exact .hex hrun
  · obtain ⟨ds, hd, rfl⟩ := Option.map_eq_some_iff.mp h
    obtain ⟨rfl, hrun⟩ := isRun_of_digits? hd
    exact .binary hrun
  · split at h
    · cases h
    · rename_i hne hs
      cases h
      obtain ⟨rfl, hw⟩ := isRun_of_span hs (by simpa using hne)
      rw [List.append_nil]
      exact .decimal hw
    · rename_i hne hs
      obtain ⟨rfl, hw⟩ := isRun_of_span hs (by simpa using hne)
      obtain ⟨he, rfl⟩ := isRun_of_scientific? h
      exact .whole hw he
    · rename_i hne hs
      obtain ⟨rfl, hw⟩ := isRun_of_span hs (by simpa using hne)
      split at h
      · cases h
      · rename_i hne' hs'
        obtain ⟨rfl, hf⟩ := isRun_of_span hs' (by simpa using hne')
        obtain ⟨he, rfl⟩ := isRun_of_scientific? h
        exact .point hw hf he
      · cases h
    · cases h

theorem notMark_of_isRun {whole rest : List Char} (hw : IsRun 10 whole) {mark : Char}
    (hm : isDecimal mark = false) (hr : ∀ c ∈ rest.head?, c ≠ mark) (cs : List Char) :
    whole ++ rest ≠ '0' :: mark :: cs := by
  intro h
  cases whole with
  | nil => exact hw.1 rfl
  | cons c whole =>
    cases whole with
    | nil =>
      obtain ⟨-, rfl⟩ := by simpa using h
      exact hr mark rfl rfl
    | cons d whole =>
      obtain ⟨-, hd, -⟩ := by simpa using h
      have hdigit : isDecimal mark = true := hw.2 mark (by simp [hd])
      rw [hm] at hdigit
      cases hdigit

theorem ofChars?_of_spells {cs : List Char} {l : Literal} (h : Spells cs l) :
    ofChars? cs = some l := by
  have hx : isDecimal 'x' = false := by decide
  have hb : isDecimal 'b' = false := by decide
  have he : isDecimal 'e' = false := by decide
  have hp : isDecimal '.' = false := by decide
  cases h with
  | hex h => simp [ofChars?, digits?_of_isRun h]
  | binary h => simp [ofChars?, digits?_of_isRun h]
  | decimal h => exact ofChars?_digits h.1 fun c hc => isDigit_of_isDecimal (h.2 c hc)
  | whole hw hrun =>
    unfold ofChars?
    split
    · exact absurd ‹_› (notMark_of_isRun hw hx (by simp) _)
    · exact absurd ‹_› (notMark_of_isRun hw hb (by simp) _)
    · rw [span_of_isRun hw (by simpa using he)]
      simp [hw.1, scientific?, digits?_of_isRun hrun]
  | @point whole fraction exponent hw hf hrun =>
    unfold ofChars?
    split
    · exact absurd ‹_› (notMark_of_isRun hw hx (by simp) _)
    · exact absurd ‹_› (notMark_of_isRun hw hb (by simp) _)
    · have hs := @span_of_isRun fraction hf ('e' :: exponent) (by simpa using he)
      rw [List.span_eq_takeWhile_dropWhile, Prod.mk.injEq] at hs
      rw [span_of_isRun hw (by simpa using hp)]
      simp [hw.1, hs.1, hs.2, hf.1, scientific?, digits?_of_isRun hrun]

theorem exists_dropZeros (cs : List Char) :
    ∃ k, cs = dropZeros cs ++ List.replicate k '0' := by
  have hzeros : cs.reverse.takeWhile (· == '0') =
      List.replicate (cs.reverse.takeWhile (· == '0')).length '0' :=
    List.eq_replicate_iff.mpr ⟨rfl, fun c hc => by simpa using List.mem_takeWhile_imp hc⟩
  refine ⟨(cs.reverse.takeWhile (· == '0')).length, ?_⟩
  rw [dropZeros, ← List.reverse_inj, List.reverse_append, List.reverse_replicate,
    List.reverse_reverse, ← hzeros, List.takeWhile_append_dropWhile]

theorem length_dropZeros_le (cs : List Char) : (dropZeros cs).length ≤ cs.length := by
  obtain ⟨k, hk⟩ := exists_dropZeros cs
  conv_rhs => rw [hk]
  simp

theorem ne_zero_of_dropZeros {cs ds : List Char} {c : Char} (h : dropZeros cs = ds ++ [c]) :
    c ≠ '0' := by
  rw [dropZeros, List.reverse_eq_iff, List.reverse_append] at h
  have hhead := List.head?_dropWhile_not (· == '0') cs.reverse
  rw [h] at hhead
  simpa using hhead

theorem digitValue?_ne_zero {c : Char} (h : isDecimal c = true) (hc : c ≠ '0') :
    (digitValue? c).getD 0 ≠ 0 := by
  have hd := isDigit_of_isDecimal h
  have hb := (Char.isDigit_iff_toNat.mp hd).1
  rw [digitValue?_of_isDigit hd, Option.getD_some]
  intro hzero
  apply hc
  rw [← Char.toNat_inj]
  omega

theorem mod_ten_ne_zero {whole fraction : List Char}
    (hf : ∀ c ∈ fraction, isDecimal c = true) (hne : dropZeros fraction ≠ []) :
    positional 10 (whole ++ dropZeros fraction) % 10 ≠ 0 := by
  obtain ⟨ds, c, hds⟩ := (List.eq_nil_or_concat' (dropZeros fraction)).resolve_left hne
  have hc : isDecimal c = true := by
    obtain ⟨k, hk⟩ := exists_dropZeros fraction
    apply hf
    rw [hk, hds]
    simp
  have hlt := digitValue?_lt hc
  have hpos := digitValue?_ne_zero hc (ne_zero_of_dropZeros hds)
  rw [hds, ← List.append_assoc, positional_append, positional_singleton]
  simp only [List.length_singleton, pow_one]
  omega

theorem value_scientific (whole fraction exponent : List Char) :
    (Literal.scientific whole fraction exponent).value =
      (positional 10 (whole ++ dropZeros fraction) : ℚ) * 10 ^ positional 10 exponent /
        10 ^ (dropZeros fraction).length := by
  obtain ⟨k, hk⟩ := exists_dropZeros fraction
  have hvalue : positional 10 fraction = positional 10 (dropZeros fraction) * 10 ^ k := by
    conv_lhs => rw [hk]
    rw [positional_append, positional_replicate_zero, List.length_replicate, Nat.add_zero]
  have hlength : fraction.length = (dropZeros fraction).length + k := by
    conv_lhs => rw [hk]
    rw [List.length_append, List.length_replicate]
  rw [value, hvalue, hlength, positional_append]
  push_cast
  rw [pow_add]
  field_simp

theorem denotation_scientific (whole fraction exponent : List Char) :
    denotation (.scientific whole fraction exponent) =
      scale (positional 10 (whole ++ dropZeros fraction)) ((dropZeros fraction).length % 2 ^ 32)
        (positional 10 exponent) := by
  simp only [ofDigits_eq_positional, denotation, Nat.pow_eq]

theorem mantissa_ne_zero {whole fraction exponent : List Char}
    (hv : (Literal.scientific whole fraction exponent).value ≠ 0) :
    positional 10 (whole ++ dropZeros fraction) ≠ 0 := by
  intro hm
  apply hv
  rw [value_scientific, hm, Nat.cast_zero, zero_mul, zero_div]

theorem div_pow_eq {mantissa decimals exponent : Nat} (h : decimals ≤ exponent) :
    (mantissa : ℚ) * 10 ^ exponent / 10 ^ decimals =
      (mantissa * 10 ^ (exponent - decimals) : Nat) := by
  obtain ⟨k, rfl⟩ := Nat.exists_eq_add_of_le h
  push_cast
  rw [Nat.add_sub_cancel_left, pow_add]
  field_simp

theorem div_pow_ne {mantissa decimals exponent : Nat} (h : exponent < decimals)
    (hlast : mantissa % 10 ≠ 0) (n : Nat) : (mantissa : ℚ) * 10 ^ exponent / 10 ^ decimals ≠ n := by
  obtain ⟨k, rfl⟩ := Nat.exists_eq_add_of_lt h
  intro heq
  have hmul : (mantissa : ℚ) = (n * 10 ^ k * 10 : Nat) := by
    push_cast
    rw [← heq, pow_succ, pow_add]
    field_simp
  have hnat : mantissa = n * 10 ^ k * 10 := by exact_mod_cast hmul
  omega

theorem lt_of_exponent {mantissa shift : Nat} (hm : mantissa ≠ 0) (hs : 78 ≤ shift) :
    maxValue < mantissa * 10 ^ shift := by
  calc maxValue < 10 ^ 78 := by decide
    _ ≤ 10 ^ shift := Nat.pow_le_pow_right (by decide) hs
    _ ≤ mantissa * 10 ^ shift := Nat.le_mul_of_pos_left _ (Nat.pos_of_ne_zero hm)

/-- What a denotation says about the value of a numeral. -/
def Tells (l : Literal) : Denotation → Prop
  | .integer n => l.value = n
  | .fractional => ∀ n : Nat, l.value ≠ n
  | .huge => (2 ^ 32 ≤ l.exponent ∧ l.value ≠ 0) ∨ ∃ n : Nat, l.value = n ∧ maxValue < n

theorem tells_scale {whole fraction exponent : List Char}
    (hf : ∀ c ∈ fraction, isDecimal c = true) :
    Tells (.scientific whole fraction exponent)
      (scale (positional 10 (whole ++ dropZeros fraction)) (dropZeros fraction).length
        (positional 10 exponent)) := by
  have hvalue := value_scientific whole fraction exponent
  unfold scale
  split
  · rename_i hm
    simp [Tells, hvalue, hm]
  rename_i hm
  split
  · rename_i he
    refine .inl ⟨he, ?_⟩
    rw [hvalue]
    positivity
  split
  · rename_i he
    have hne : dropZeros fraction ≠ [] := List.ne_nil_of_length_pos (by omega)
    intro n
    rw [hvalue]
    exact div_pow_ne he (mod_ten_ne_zero hf hne) n
  rename_i he
  have hnat := hvalue.trans (div_pow_eq (Nat.not_lt.mp he))
  split
  · rename_i hshift
    exact .inr ⟨_, hnat, lt_of_exponent hm (Nat.le_of_lt hshift)⟩
  · exact hnat

theorem tells_scientific {whole fraction exponent : List Char}
    (hf : ∀ c ∈ fraction, isDecimal c = true) (hlength : fraction.length < 2 ^ 32) :
    Tells (.scientific whole fraction exponent) <|
      denotation (.scientific whole fraction exponent) := by
  have hdecimals := (length_dropZeros_le fraction).trans_lt hlength
  rw [denotation_scientific, Nat.mod_eq_of_lt hdecimals]
  exact tells_scale hf

theorem Spells.tells {cs : List Char} {l : Literal} (h : Spells cs l)
    (hlength : cs.length < 2 ^ 32) : l.Tells l.denotation := by
  cases h with
  | hex h | binary h | decimal h =>
    simp only [Tells, denotation, value, ofDigits_eq_positional]
  | whole hw he => exact tells_scientific (by simp) (by decide)
  | point hw hf he =>
    refine tells_scientific hf.2 ?_
    simp only [List.length_append, List.length_cons] at hlength
    omega

theorem denotation_of_exponent {l : Literal} (he : 2 ^ 32 ≤ l.exponent) (hv : l.value ≠ 0) :
    l.denotation = .huge := by
  cases l with
  | hex ds | binary ds | decimal ds => cases he
  | scientific whole fraction exponent =>
    rw [denotation_scientific, scale, if_neg (mantissa_ne_zero hv)]
    exact if_pos he

theorem Spells.length {cs whole fraction exponent : List Char}
    (h : Spells cs (.scientific whole fraction exponent)) :
    IsRun 10 exponent ∧ (fraction = [] ∨ 3 + fraction.length + exponent.length ≤ cs.length) := by
  cases h with
  | whole hw he => exact ⟨he, .inl rfl⟩
  | point hw hf he =>
    have hpos := List.length_pos_iff.mpr hw.1
    refine ⟨he, .inr ?_⟩
    simp only [List.length_append, List.length_cons]
    omega

theorem Spells.exists_value {cs : List Char} {l : Literal} (h : Spells cs l)
    (hlength : cs.length < 2 ^ 32) (he : 2 ^ 32 ≤ l.exponent) : ∃ n : Nat, l.value = n := by
  cases l with
  | hex ds | binary ds | decimal ds => exact ⟨_, rfl⟩
  | scientific whole fraction exponent =>
    have hdecimals := length_dropZeros_le fraction
    have hle : (dropZeros fraction).length ≤ positional 10 exponent := by
      obtain rfl | hcs := h.length.2
      · exact Nat.zero_le _
      · exact hdecimals.trans (by simp only [Literal.exponent] at he; omega)
    exact ⟨_, (value_scientific whole fraction exponent).trans (div_pow_eq hle)⟩

theorem Spells.exponent_lt {cs : List Char} {l : Literal} (h : Spells cs l)
    (hlength : cs.length < 2 ^ 32 - 64) (hv : l.value ≠ 0) (hmax : l.value ≤ maxValue) :
    l.exponent < 2 ^ 32 := by
  cases l with
  | hex ds | binary ds | decimal ds => exact Nat.two_pow_pos 32
  | scientific whole fraction exponent =>
    by_contra hnot
    have he : 2 ^ 32 ≤ positional 10 exponent := Nat.not_lt.mp hnot
    obtain ⟨hrun, hcs⟩ := h.length
    have hten : 10 ≤ exponent.length := by
      by_contra hshort
      have hpow : 10 ^ exponent.length ≤ 10 ^ 9 := Nat.pow_le_pow_right (by decide) (by omega)
      have hlt := positional_lt hrun.2
      omega
    have hdecimals := length_dropZeros_le fraction
    have hshift : 78 ≤ positional 10 exponent - (dropZeros fraction).length := by
      obtain rfl | hcs := hcs
      · simp only [List.length_nil] at hdecimals
        omega
      · omega
    have hnat := (value_scientific whole fraction exponent).trans
      (div_pow_eq (by omega : (dropZeros fraction).length ≤ positional 10 exponent))
    rw [hnat, Nat.cast_le] at hmax
    exact absurd (lt_of_exponent (mantissa_ne_zero hv) hshift) (Nat.not_lt.mpr hmax)

theorem isNumeric_eq_true_iff {word : String} :
    isNumeric word = true ↔ ∃ l, Spells word.toList l := by
  rw [isNumeric, Option.isSome_iff_exists]
  exact exists_congr fun l => ⟨spells_of_ofChars?, ofChars?_of_spells⟩

theorem toLower_eq_iff {c d : Char} (hd : ¬ d.isUpper = true) :
    c.toLower = d ↔ c = d ∨ c = d.toUpper := by
  constructor
  · rintro rfl
    rw [Char.toUpper_toLower_eq_toUpper]
    by_cases hc : c.isUpper = true
    · exact .inr (Char.toUpper_eq_of_not_isLower (Char.not_isLower_of_isUpper hc)).symm
    · exact .inl (Char.toLower_eq_of_not_isUpper hc).symm
  · rintro (rfl | rfl)
    · exact Char.toLower_eq_of_not_isUpper hd
    · rw [Char.toLower_toUpper_eq_toLower, Char.toLower_eq_of_not_isUpper hd]

theorem map_toLower_eq_iff {cs ds : List Char} (hd : ∀ d ∈ ds, ¬ d.isUpper = true) :
    cs.map Char.toLower = ds ↔ List.Forall₂ (fun c d => c = d ∨ c = d.toUpper) cs ds := by
  induction ds generalizing cs with
  | nil => simp
  | cons d ds ih =>
    rw [List.forall_mem_cons] at hd
    cases cs with
    | nil => simp
    | cons c cs => simp [toLower_eq_iff hd.1, ih hd.2]

/-- The words for the largest value, in lower case. -/
def sentinels : List String :=
  ["max-uint256", "max_uint256", "infinity"]

theorem isSentinel_eq_true_iff {word : String} : isSentinel word = true ↔ ∃ s ∈ sentinels,
    List.Forall₂ (fun c d => c = d ∨ c = d.toUpper) word.toList s.toList := by
  have hlower : (sentinels.all fun s => s.toList.all fun d => !d.isUpper) = true := by decide +kernel
  have hany : isSentinel word = true ↔
      ∃ s ∈ sentinels, word.toList.map Char.toLower = s.toList := by
    rw [isSentinel, List.any_eq_true]
    exact exists_congr fun s => and_congr_right fun _ => beq_iff_eq.trans eq_comm
  rw [hany]
  refine exists_congr fun s => and_congr_right fun hs => map_toLower_eq_iff ?_
  intro d hd
  simpa using List.all_eq_true.mp (List.all_eq_true.mp hlower s hs) d hd

theorem Spells.exists_digit {cs : List Char} {l : Literal} (h : Spells cs l) :
    ∃ c rest, cs = c :: rest ∧ isDecimal c = true := by
  have hrun : ∀ {whole : List Char} (rest : List Char), IsRun 10 whole →
      ∃ c rest', whole ++ rest = c :: rest' ∧ isDecimal c = true := by
    intro whole rest hw
    obtain ⟨c, whole, rfl⟩ := List.exists_cons_of_ne_nil hw.1
    exact ⟨c, whole ++ rest, rfl, hw.2 c List.mem_cons_self⟩
  cases h with
  | hex h | binary h => exact ⟨'0', _, rfl, by decide⟩
  | decimal h => simpa using hrun [] h
  | whole hw he => exact hrun _ hw
  | point hw hf he => exact hrun _ hw

theorem Spells.isSentinel {word : String} {l : Literal} (h : Spells word.toList l) :
    isSentinel word = false := by
  have hletter : (sentinels.all fun s => s.toList.head?.all fun d =>
      !isDecimal d && !isDecimal d.toUpper) = true := by decide +kernel
  obtain ⟨c, rest, hcs, hc⟩ := h.exists_digit
  rw [Bool.eq_false_iff]
  intro hs
  obtain ⟨s, hs, hsame⟩ := isSentinel_eq_true_iff.mp hs
  rw [hcs, List.forall₂_cons_left_iff] at hsame
  obtain ⟨d, ds, hd, -, hds⟩ := hsame
  have hfirst := List.all_eq_true.mp hletter s hs
  simp only [hds, List.head?_cons, Option.all_some, Bool.and_eq_true, Bool.not_eq_true'] at hfirst
  obtain rfl | rfl := hd
  · rw [hc] at hfirst
    cases hfirst.1
  · rw [hc] at hfirst
    cases hfirst.2

/-- The reader gives the value of a numeral, or says why there is none. -/
structure ReadsExactly (word : String) (l : Literal) : Prop where
  ok : ∀ n : Nat, l.value = n → n ≤ maxValue → read word = .ok n
  outOfRange : ∀ n : Nat, l.value = n → maxValue < n → read word = .error (.outOfRange word)
  fractional : (∀ n : Nat, l.value ≠ n) → read word = .error (.fractional word)

theorem read_of_huge {word : String} {l : Literal} (h : Spells word.toList l)
    (hd : l.denotation = .huge) : read word = .error (.outOfRange word) := by
  simp [read, h.isSentinel, ofChars?_of_spells h, hd]

theorem read_of_integer {word : String} {l : Literal} {n : Nat} (h : Spells word.toList l)
    (hd : l.denotation = .integer n) :
    read word = if n ≤ maxValue then .ok n else .error (.outOfRange word) := by
  simp [read, h.isSentinel, ofChars?_of_spells h, hd]

theorem Spells.readsExactly {word : String} {l : Literal} (h : Spells word.toList l)
    (hlength : word.length < 2 ^ 32) (he : l.exponent < 2 ^ 32 ∨ l.value = 0) :
    ReadsExactly word l := by
  have htells := h.tells (by rwa [String.length_toList])
  cases hd : l.denotation with
  | integer m =>
    rw [hd] at htells
    have hread := read_of_integer h hd
    have hm : ∀ n : Nat, l.value = n → n = m :=
      fun n hn => Nat.cast_injective (hn.symm.trans htells)
    constructor
    · intro n hn hle
      rw [hread, ← hm n hn, if_pos hle]
    · intro n hn hlt
      rw [hread, ← hm n hn, if_neg (Nat.not_le.mpr hlt)]
    · exact fun hne => absurd htells (hne m)
  | fractional =>
    rw [hd] at htells
    refine ⟨fun n hn => absurd hn (htells n), fun n hn => absurd hn (htells n), fun _ => ?_⟩
    simp [read, h.isSentinel, ofChars?_of_spells h, hd]
  | huge =>
    rw [hd] at htells
    obtain ⟨hexp, hne⟩ | ⟨m, hm, hlt⟩ := htells
    · cases he with
      | inl he => exact absurd hexp (Nat.not_le.mpr he)
      | inr he => exact absurd he hne
    · refine ⟨fun n hn hle => ?_, fun _ _ _ => read_of_huge h hd, fun hne => absurd hm (hne m)⟩
      rw [Nat.cast_injective (hn.symm.trans hm)] at hle
      exact absurd hlt (Nat.not_lt.mpr hle)

theorem Spells.readsExactly_of_length {word : String} {l : Literal} (h : Spells word.toList l)
    (hlength : word.length < 2 ^ 32 - 64) : ReadsExactly word l := by
  by_cases he : l.exponent < 2 ^ 32 ∨ l.value = 0
  · exact h.readsExactly (by omega) he
  rw [not_or, Nat.not_lt] at he
  have hread := read_of_huge h (denotation_of_exponent he.1 he.2)
  have hshort : word.toList.length < 2 ^ 32 - 64 := by rwa [String.length_toList]
  refine ⟨fun n hn hle => ?_, fun _ _ _ => hread, fun hne => ?_⟩
  · have hmax : l.value ≤ maxValue := by
      rw [hn]
      exact_mod_cast hle
    exact absurd (h.exponent_lt hshort he.2 hmax) (Nat.not_lt.mpr he.1)
  · obtain ⟨n, hn⟩ := h.exists_value (by omega) he.1
    exact absurd hn (hne n)

theorem read_eq_notNumeric_iff {word : String} :
    read word = .error (.notNumeric word) ↔ isNumeric word = false ∧ isSentinel word = false := by
  unfold read isNumeric
  cases isSentinel word with
  | true => simp
  | false =>
    cases ofChars? word.toList with
    | none => simp
    | some l =>
      cases hd : l.denotation with
      | integer n => by_cases hn : n ≤ maxValue <;> simp [hd, hn]
      | fractional | huge => simp [hd]

/-- A sentinel stands for the largest value, and a numeral for the integer that it spells. -/
inductive Means (word : String) : Nat → Prop
  | sentinel {s : String} (hs : s ∈ sentinels)
      (h : List.Forall₂ (fun c d => c = d ∨ c = d.toUpper) word.toList s.toList) :
      Means word maxValue
  | numeral {l : Literal} {n : Nat} (h : Spells word.toList l) (hv : l.value = n)
      (hn : n ≤ maxValue) : Means word n

/-- The word has few decimals, and few or small enough exponent digits, for 32 bits. -/
def InReach (word : String) : Prop :=
  word.length < 2 ^ 32 - 64 ∨
    word.length < 2 ^ 32 ∧ ∀ l, Spells word.toList l → l.exponent < 2 ^ 32 ∨ l.value = 0

theorem Spells.readsExactly_of_inReach {word : String} {l : Literal} (h : Spells word.toList l)
    (hr : InReach word) : ReadsExactly word l := by
  obtain hlength | ⟨hlength, he⟩ := hr
  · exact h.readsExactly_of_length hlength
  · exact h.readsExactly hlength (he l h)

theorem Spells.means_of_read {word : String} {l : Literal} {n : Nat} (h : Spells word.toList l)
    (hr : InReach word) (hread : read word = .ok n) : Means word n := by
  have hexact := h.readsExactly_of_inReach hr
  by_cases hinteger : ∃ m : Nat, l.value = m
  · obtain ⟨m, hm⟩ := hinteger
    by_cases hle : m ≤ maxValue
    · rw [hexact.ok m hm hle, Except.ok.injEq] at hread
      exact .numeral h (hread ▸ hm) (hread ▸ hle)
    · rw [hexact.outOfRange m hm (Nat.not_le.mp hle)] at hread
      cases hread
  · rw [hexact.fractional (not_exists.mp hinteger)] at hread
    cases hread

theorem read_eq_ok_iff_means {word : String} {n : Nat} (hr : InReach word) :
    read word = .ok n ↔ Means word n := by
  constructor
  · intro hread
    by_cases hs : isSentinel word = true
    · obtain ⟨s, hs', hsame⟩ := isSentinel_eq_true_iff.mp hs
      rw [read, if_pos hs, Except.ok.injEq] at hread
      exact hread ▸ .sentinel hs' hsame
    · have hnumeric : isNumeric word = true := by
        simpa [hs] using isNumeral_of_read hread
      obtain ⟨l, hl⟩ := isNumeric_eq_true_iff.mp hnumeric
      exact hl.means_of_read hr hread
  · intro h
    cases h with
    | sentinel hs hsame =>
      rw [read, if_pos (isSentinel_eq_true_iff.mpr ⟨_, hs, hsame⟩)]
    | numeral hl hv hn => exact (hl.readsExactly_of_inReach hr).ok n hv hn

theorem inReach_of_read {word : String} {n : Nat} (hlength : word.length < 2 ^ 32)
    (hread : read word = .ok n) : InReach word := by
  refine .inr ⟨hlength, fun l hl => ?_⟩
  by_contra hnot
  rw [not_or, Nat.not_lt] at hnot
  rw [read_of_huge hl (denotation_of_exponent hnot.1 hnot.2)] at hread
  cases hread

theorem means_decimal {n : Nat} (h : n ≤ maxValue) : Means (Wordcode.decimal n) n := by
  refine .numeral (spells_of_ofChars? (ofChars?_decimal n)) ?_ h
  rw [value, ← ofDigits_eq_positional, ofDigits_decimal]

theorem Spells.isWord {cs : List Char} {l : Literal} (h : Spells cs l) : IsWord cs := by
  refine ⟨?_, isWordChar_of_ofChars? (ofChars?_of_spells h)⟩
  obtain ⟨c, rest, rfl, -⟩ := h.exists_digit
  exact List.cons_ne_nil c rest

theorem Spells.unique {cs : List Char} {l l' : Literal} (h : Spells cs l) (h' : Spells cs l') :
    l = l' :=
  Option.some.inj ((ofChars?_of_spells h).symm.trans (ofChars?_of_spells h'))

theorem Spells.not_means {word : String} {l : Literal} (h : Spells word.toList l)
    (hv : ∀ n : Nat, l.value ≠ n) (n : Nat) : ¬ Means word n := by
  intro hm
  cases hm with
  | sentinel hs hsame =>
    have hsentinel := isSentinel_eq_true_iff.mpr ⟨_, hs, hsame⟩
    rw [h.isSentinel] at hsentinel
    cases hsentinel
  | numeral h' hv' _ => exact hv n (h.unique h' ▸ hv')

/-- Numerals of less than `2 ^ 32` characters are read exactly, but for an exponent of `2 ^ 32` or
more. Such a one is out of range unless the value is zero, also where decimals bring the value back
into range; that takes at least `2 ^ 32 - 64` characters. -/
theorem read_exact (word : String) (hlength : word.length < 2 ^ 32) :
    (isNumeric word = true ↔ ∃ l, Spells word.toList l) ∧
    (isSentinel word = true ↔ ∃ s ∈ sentinels,
      List.Forall₂ (fun c d => c = d ∨ c = d.toUpper) word.toList s.toList) ∧
    (read word = .error (.notNumeric word) ↔
      isNumeric word = false ∧ isSentinel word = false) ∧
    (isSentinel word = true → read word = .ok maxValue) ∧
    (∀ l, Spells word.toList l →
      (l.exponent < 2 ^ 32 ∨ l.value = 0 → ReadsExactly word l) ∧
      (2 ^ 32 ≤ l.exponent → l.value ≠ 0 →
        (∃ n : Nat, l.value = n) ∧ read word = .error (.outOfRange word)) ∧
      (word.length < 2 ^ 32 - 64 → ReadsExactly word l)) ∧
    ∀ n ≤ maxValue, read (Wordcode.decimal n) = .ok n := by
  refine ⟨isNumeric_eq_true_iff, isSentinel_eq_true_iff, read_eq_notNumeric_iff, ?_, ?_, ?_⟩
  · intro hs
    rw [read, if_pos hs]
  · intro l h
    refine ⟨h.readsExactly hlength, fun he hv => ⟨?_, ?_⟩, h.readsExactly_of_length⟩
    · exact h.exists_value (by rwa [String.length_toList]) he
    · exact read_of_huge h (denotation_of_exponent he hv)
  · exact fun n hn => read_decimal hn

theorem read_exact_decimals :
    "2.50e1".length < 2 ^ 32 ∧ read "2.50e1" = .ok 25 ∧
      read "2.25e1" = .error (.fractional "2.25e1") := by
  have hspells : ∀ {word : String} {l : Literal}, ofChars? word.toList = some l →
      word.length < 2 ^ 32 - 64 → ReadsExactly word l := fun h hlength =>
    ((read_exact _ (by omega)).2.2.2.2.1 _ (spells_of_ofChars? h)).2.2 hlength
  have hwhole : positional 10 ['2'] = 2 := by decide
  have hexponent : positional 10 ['1'] = 1 := by decide
  refine ⟨by decide, ?_, ?_⟩
  · have hfraction : positional 10 ['5', '0'] = 50 := by decide
    have hread := @hspells "2.50e1" (.scientific ['2'] ['5', '0'] ['1']) (by decide +kernel) (by decide)
    refine hread.ok 25 ?_ (by decide)
    norm_num [value, hwhole, hfraction, hexponent]
  · have hfraction : positional 10 ['2', '5'] = 25 := by decide
    have hread := @hspells "2.25e1" (.scientific ['2'] ['2', '5'] ['1']) (by decide +kernel) (by decide)
    refine hread.fractional fun n hn => ?_
    have hvalue : ((45 : Nat) : ℚ) = (2 * n : Nat) := by
      push_cast
      rw [← hn]
      norm_num [value, hwhole, hfraction, hexponent]
    have hnat : 45 = 2 * n := Nat.cast_injective hvalue
    omega

/-- A one far behind the point, brought back by the power of ten. -/
def shifted (k : Nat) (exponent : List Char) : Literal :=
  .scientific ['0'] (List.replicate k '0' ++ ['1']) exponent

def shiftedWord (k : Nat) (exponent : List Char) : String :=
  String.ofList (['0'] ++ '.' :: ((List.replicate k '0' ++ ['1']) ++ 'e' :: exponent))

theorem length_shiftedWord (k : Nat) (exponent : List Char) :
    (shiftedWord k exponent).length = k + exponent.length + 4 := by
  rw [shiftedWord, String.length_ofList]
  simp
  omega

theorem spells_shiftedWord (k : Nat) {exponent : List Char} (he : IsRun 10 exponent) :
    Spells (shiftedWord k exponent).toList (shifted k exponent) := by
  rw [shiftedWord, String.toList_ofList]
  have hwhole : IsRun 10 ['0'] := ⟨by decide, List.all_eq_true.mp (by decide)⟩
  refine .point hwhole ⟨by simp, fun c hc => ?_⟩ he
  obtain hc | hc := List.mem_append.mp hc
  · rw [List.eq_of_mem_replicate hc]
    decide
  · rw [List.mem_singleton.mp hc]
    decide

theorem value_shifted {k n : Nat} {exponent : List Char}
    (he : positional 10 exponent = k + 1 + n) : (shifted k exponent).value = (10 ^ n : Nat) := by
  have hzero : positional 10 ['0'] = 0 := by decide
  have hone : positional 10 ['1'] = 1 := by decide
  rw [shifted, value, he, hzero, positional_append, positional_replicate_zero, hone,
    List.length_append, List.length_replicate, List.length_singleton, pow_add]
  push_cast
  field_simp
  ring

theorem dropZeros_shifted (k : Nat) :
    dropZeros (List.replicate k '0' ++ ['1']) = List.replicate k '0' ++ ['1'] := by
  simp [dropZeros]

theorem positional_shifted (k : Nat) :
    positional 10 (['0'] ++ (List.replicate k '0' ++ ['1'])) = 1 := by
  have hzero : positional 10 ['0'] = 0 := by decide
  have hone : positional 10 ['1'] = 1 := by decide
  rw [positional_append, positional_append, positional_replicate_zero, hzero, hone, Nat.zero_mul,
    Nat.zero_mul, Nat.zero_add, Nat.zero_add]

theorem denotation_shifted (k : Nat) (exponent : List Char) :
    denotation (shifted k exponent) = scale 1 ((k + 1) % 2 ^ 32) (positional 10 exponent) := by
  rw [shifted, denotation_scientific, dropZeros_shifted, positional_shifted, List.length_append,
    List.length_replicate, List.length_singleton]

theorem value_shifted_ne {k : Nat} {exponent : List Char} (he : positional 10 exponent ≤ k)
    (n : Nat) : (shifted k exponent).value ≠ n := by
  rw [shifted, value_scientific, dropZeros_shifted, positional_shifted, List.length_append,
    List.length_replicate, List.length_singleton]
  exact div_pow_ne (Nat.lt_succ_of_le he) (by decide) n

/-- A numeral of `10 ^ 14` with one character less than `2 ^ 32`, out of reach. -/
def farWord : String :=
  shiftedWord (2 ^ 32 - 15) ['4', '2', '9', '4', '9', '6', '7', '2', '9', '6']

theorem spells_farWord : Spells farWord.toList
    (shifted (2 ^ 32 - 15) ['4', '2', '9', '4', '9', '6', '7', '2', '9', '6']) :=
  spells_shiftedWord _ ⟨by decide, List.all_eq_true.mp (by decide)⟩

theorem means_farWord : Means farWord (10 ^ 14) :=
  .numeral spells_farWord (value_shifted (by decide)) (by decide)

theorem read_farWord : read farWord = .error (.outOfRange farWord) := by
  refine read_of_huge spells_farWord ?_
  rw [denotation_shifted, show positional 10 _ = 2 ^ 32 from by decide]
  rfl

/-- The decimals bring this numeral down to `10 ^ 14`, and it is out of range all the same. -/
theorem read_shiftedWord :
    let exponent := ['4', '2', '9', '4', '9', '6', '7', '2', '9', '6']
    let word := shiftedWord (2 ^ 32 - 15) exponent
    let l := shifted (2 ^ 32 - 15) exponent
    word.length < 2 ^ 32 ∧ Spells word.toList l ∧ l.value = (10 ^ 14 : Nat) ∧
      10 ^ 14 ≤ maxValue ∧ read word = .error (.outOfRange word) := by
  intro exponent word l
  have hlength : word.length = 2 ^ 32 - 15 + 10 + 4 := length_shiftedWord _ exponent
  exact ⟨by omega, spells_farWord, value_shifted (by decide), by decide, read_farWord⟩

/-- A numeral of `2 ^ 32` decimals, which are taken for none. -/
def wrappedWord : String :=
  shiftedWord (2 ^ 32 - 1) ['5']

theorem spells_wrappedWord : Spells wrappedWord.toList (shifted (2 ^ 32 - 1) ['5']) :=
  spells_shiftedWord _ ⟨by decide, List.all_eq_true.mp (by decide)⟩

theorem not_means_wrappedWord (n : Nat) : ¬ Means wrappedWord n := by
  refine spells_wrappedWord.not_means (value_shifted_ne ?_) n
  rw [show positional 10 ['5'] = 5 from by decide]
  decide

theorem read_wrappedWord : read wrappedWord = .ok 100000 := by
  have hd : denotation (shifted (2 ^ 32 - 1) ['5']) = .integer 100000 := by
    rw [denotation_shifted, show positional 10 ['5'] = 5 from by decide]
    rfl
  exact (read_of_integer spells_wrappedWord hd).trans (if_pos (by decide))

end Literal

end Wordcode
