import Wordcode.Json.Reader
import Wordcode.Json.Writer
import Wordcode.Proofs.Numerals

namespace Wordcode

/-! ## Numbers -/

theorem head?_toDigits_ne_zero {n : Nat} (h : n ≠ 0) : (Nat.toDigits 10 n).head? ≠ some '0' := by
  induction n using Nat.strongRecOn with
  | ind n ih =>
    by_cases hn : n < 10
    · rw [Nat.toDigits_of_lt_base hn]
      interval_cases n <;> simp_all
    · have hle : 10 ≤ n := Nat.le_of_not_lt hn
      rw [Nat.toDigits_of_base_le (by decide) hle,
        List.head?_append_of_ne_nil _ Nat.toDigits_ne_nil]
      exact ih (n / 10) (by omega) (by omega)

theorem le_foldl_digits (cs : List Char) (n : Nat) :
    n ≤ cs.foldl (fun n c => n * 10 + (digitValue? c).getD 0) n := by
  induction cs generalizing n with
  | nil => exact Nat.le_refl n
  | cons c cs ih =>
    apply Nat.le_trans _ (ih (n * 10 + (digitValue? c).getD 0))
    omega

theorem leadingDigits_of_lt {cs : List Char} {n : Nat}
    (h : cs.foldl (fun n c => n * 10 + (digitValue? c).getD 0) n < 2 ^ 64) :
    leadingDigits n cs = (cs.foldl (fun n c => n * 10 + (digitValue? c).getD 0) n, 0) := by
  induction cs generalizing n with
  | nil => rfl
  | cons c cs ih =>
    have hle := le_foldl_digits cs (n * 10 + (digitValue? c).getD 0)
    have hlt : n * 10 + (digitValue? c).getD 0 < 2 ^ 64 := Nat.lt_of_le_of_lt hle h
    rw [leadingDigits, Nat.pow_eq, if_pos hlt, ih h, List.foldl_cons]

theorem roundDouble_le {n : Nat} (h : n ≠ 0) : roundDouble n ≤ 2 * n := by
  have hunit : 2 ^ (n.log2 - 52) ≤ n :=
    Nat.le_trans (Nat.pow_le_pow_right (by decide) (Nat.sub_le _ _)) (Nat.log2_self_le h)
  have hq := Nat.div_mul_le_self n (2 ^ (n.log2 - 52))
  unfold roundDouble
  simp only [Nat.pow_eq]
  split
  · rw [Nat.add_mul, Nat.one_mul]
    omega
  · omega

theorem exceedsScaled_of_lt {cs : List Char} (h : ofDigits 10 cs < 2 ^ 64) :
    exceedsScaled cs [] 0 = false := by
  have hl : leadingDigits 0 cs = (ofDigits 10 cs, 0) := leadingDigits_of_lt h
  by_cases hz : ofDigits 10 cs = 0
  · simp [exceedsScaled, hl, hz, leadingDigits]
  · have hr := roundDouble_le hz
    have hone : roundDouble 1 = 1 := by decide
    have hlimit : 2 * 2 ^ 64 ≤ doubleLimit := by decide +kernel
    simp only [exceedsScaled, hl, leadingDigits]
    simp [hz, hone]
    omega

theorem hexadecimal_of_lt {n : Nat} (h : n < 0x20) :
    (hexadecimal 4 n).toList = ['0', '0', Nat.digitChar (n / 16), Nat.digitChar (n % 16)] := by
  interval_cases n <;> cbv

theorem digitValue?_digitChar {n : Nat} (h : n < 16) :
    digitValue? (Nat.digitChar n) = some n := by
  interval_cases n <;> decide

namespace Json

theorem span_isDecimal_decimal (n : Nat) :
    (decimal n).toList.span isDecimal = ((decimal n).toList, []) := by
  have ha : ∀ c ∈ (decimal n).toList, isDecimal c = true :=
    fun c hc => isDecimal_of_isDigit (isDigit_of_mem_decimal hc)
  rw [List.span_eq_takeWhile_dropWhile, List.takeWhile_eq_self_iff.mpr ha,
    List.dropWhile_eq_nil_iff.mpr ha]

theorem no_leading_zero_decimal (n : Nat) :
    ((decimal n).toList.head? == some '0' && decide ((decimal n).toList.length > 1)) = false := by
  by_cases hn : n = 0
  · subst hn
    decide
  · rw [toList_decimal]
    simp [head?_toDigits_ne_zero hn]

theorem number?_decimal {n : Nat} (h : n < 2 ^ 64) :
    number? (decimal n).toList = some (.int n) := by
  have hx : exceedsScaled (decimal n).toList [] 0 = false :=
    exceedsScaled_of_lt (by rwa [ofDigits_decimal])
  have hz := no_leading_zero_decimal n
  have hne : (decimal n).toList.isEmpty = false := by
    rw [List.isEmpty_eq_false_iff]
    exact decimal_ne_nil n
  unfold number?
  split
  rename_i negative rest heq
  split at heq
  · rename_i r hr
    exact absurd (isDigit_of_mem_decimal (c := '-') (by rw [hr]; simp)) (by decide)
  · cases heq
    rw [span_isDecimal_decimal]
    simp only [hne, hz, Bool.or_self, Bool.false_eq_true, if_false, fraction?, exponent?]
    simp [ofDigits_decimal, hx]

theorem atom?_decimal {n : Nat} (h : n < 2 ^ 64) : atom? (decimal n).toList = some (.int n) := by
  have hname : ∀ {name : List Char} (c : Char), c ∈ name → c.isDigit = false →
      ((decimal n).toList == name) = false := by
    intro name c hc hd
    rw [beq_eq_false_iff_ne]
    intro he
    rw [← he] at hc
    rw [isDigit_of_mem_decimal hc] at hd
    exact Bool.noConfusion hd
  rw [atom?, hname 't' (by simp) (by decide), hname 'f' (by simp) (by decide),
    hname 'n' (by simp) (by decide)]
  exact number?_decimal h

/-! ## Tokens -/

/-- The text does not go on with an atom that stands before it. -/
def Ends (rest : List Char) : Prop :=
  ∀ c ∈ rest.head?, isAtomChar c = false

theorem Ends.append {text rest : List Char} (h : Ends text) (hr : Ends rest) :
    Ends (text ++ rest) := by
  cases text with
  | nil => exact hr
  | cons c text => exact h

/-- The text gives these tokens, whatever stands before it and whatever ends it. -/
def Scans (text : List Char) (tokens : List Token) : Prop :=
  ∀ done rest, Ends rest →
    scan .between done (text ++ rest) = scan .between (tokens.reverse ++ done) rest

theorem Scans.nil : Scans [] [] := by
  intro done rest _
  rfl

theorem Scans.append {text text' : List Char} {tokens tokens' : List Token}
    (h : Scans text tokens) (h' : Scans text' tokens') (he : Ends text') :
    Scans (text ++ text') (tokens ++ tokens') := by
  intro done rest hr
  rw [List.append_assoc, h done _ (he.append hr), h' _ rest hr, List.reverse_append,
    List.append_assoc]

theorem Scans.mark {c : Char} {t : Token} {text : List Char} {tokens : List Token}
    (hc : ∀ done, plain? done c = some (.between, t :: done)) (h : Scans text tokens) :
    Scans (c :: text) (t :: tokens) := by
  intro done rest hr
  rw [List.cons_append, scan, Mode.step?, hc]
  dsimp only
  rw [h (t :: done) rest hr]
  simp

theorem Scans.space {c : Char} {text : List Char} {tokens : List Token} (hc : isSpace c = true)
    (h : Scans text tokens) : Scans (c :: text) tokens := by
  intro done rest hr
  have hp : plain? done c = some (.between, done) := by
    rw [plain?, if_pos hc]
  rw [List.cons_append, scan, Mode.step?, hp]
  exact h done rest hr

theorem Scans.spaces {cs text : List Char} {tokens : List Token}
    (hc : ∀ c ∈ cs, isSpace c = true) (h : Scans text tokens) : Scans (cs ++ text) tokens := by
  induction cs with
  | nil => exact h
  | cons c cs ih => exact .space (hc c (by simp)) (ih fun d hd => hc d (by simp [hd]))

theorem plain?_of_isAtomChar {c : Char} (h : isAtomChar c = true) (done : List Token) :
    plain? done c = some (.atom [c], done) := by
  have hne : ∀ d : Char, isAtomChar d = false → (c == d) = false := by
    intro d hd
    rw [beq_eq_false_iff_ne]
    rintro rfl
    rw [h] at hd
    exact Bool.noConfusion hd
  have hs : isSpace c = false := by
    rw [isSpace, hne ' ' (by decide), hne '\t' (by decide), hne '\n' (by decide),
      hne '\r' (by decide)]
    rfl
  simp [plain?, hs, h, hne '"' (by decide), hne '[' (by decide), hne ']' (by decide),
    hne '\x7b' (by decide), hne '\x7d' (by decide), hne ',' (by decide), hne ':' (by decide)]

theorem scan_atom_append {cs : List Char} (h : ∀ c ∈ cs, isAtomChar c = true) (acc : List Char)
    (done : List Token) (rest : List Char) :
    scan (.atom acc) done (cs ++ rest) = scan (.atom (cs.reverse ++ acc)) done rest := by
  induction cs generalizing acc with
  | nil => rfl
  | cons c cs ih =>
    rw [List.cons_append, scan, Mode.step?, if_pos (h c (by simp))]
    dsimp only
    rw [ih fun d hd => h d (by simp [hd])]
    simp

theorem scan_atom_ends {acc : List Char} {v : Json} (hv : atom? acc.reverse = some v)
    (done : List Token) {rest : List Char} (hr : Ends rest) :
    scan (.atom acc) done rest = scan .between (.scalar v :: done) rest := by
  cases rest with
  | nil => simp [scan, Mode.finish?, hv]
  | cons c rest =>
    have hc : isAtomChar c = false := hr c rfl
    simp [scan, Mode.step?, hc, hv]

theorem Scans.atom {text : List Char} {v : Json} (hc : ∀ c ∈ text, isAtomChar c = true)
    (hne : text ≠ []) (hv : atom? text = some v) : Scans text [.scalar v] := by
  intro done rest hr
  cases text with
  | nil => exact absurd rfl hne
  | cons c cs =>
    rw [List.cons_append, scan, Mode.step?, plain?_of_isAtomChar (hc c (by simp))]
    dsimp only
    rw [scan_atom_append fun d hd => hc d (by simp [hd])]
    exact scan_atom_ends (by simpa using hv) done hr

/-! ## Strings -/

theorem scan_escaped {c d : Char} (h : unescape? c = some d) (s : StringState)
    (done : List Token) (rest : List Char) :
    scan (.string s) done ('\\' :: c :: rest) = scan (.string (s.push d)) done rest := by
  have hc : c ≠ 'u' := by
    rintro rfl
    simp [unescape?] at h
  simp [scan, Mode.step?, hc, h]

theorem scan_unicode {n : Nat} (h : n < 0x20) (s : StringState) (done : List Token)
    (rest : List Char) :
    scan (.string s) done (("\\u" ++ hexadecimal 4 n).toList ++ rest) =
      scan (.string (s.push (Char.ofNat n))) done rest := by
  have hhigh : digitValue? (Nat.digitChar (n / 16)) = some (n / 16) :=
    digitValue?_digitChar (by omega)
  have hlow : digitValue? (Nat.digitChar (n % 16)) = some (n % 16) :=
    digitValue?_digitChar (by omega)
  have hzero : digitValue? '0' = some 0 := by decide
  have hunit : n / 16 * 16 + n % 16 = n := by omega
  have hpush : s.pushUnit n = s.push (Char.ofNat n) := by
    rw [StringState.pushUnit, if_neg (by omega), if_neg (by omega)]
  rw [String.toList_append, hexadecimal_of_lt h]
  simp [scan, Mode.step?, hhigh, hlow, hzero, hunit, hpush]

theorem scan_escape (c : Char) (s : StringState) (done : List Token) (rest : List Char) :
    scan (.string s) done ((escape c).toList ++ rest) =
      scan (.string (s.push c)) done rest := by
  unfold escape
  split
  · exact scan_escaped rfl s done rest
  · exact scan_escaped rfl s done rest
  · exact scan_escaped rfl s done rest
  · exact scan_escaped rfl s done rest
  · exact scan_escaped rfl s done rest
  · exact scan_escaped rfl s done rest
  · exact scan_escaped rfl s done rest
  · rename_i hquote hslash _ _ _ _ _
    by_cases hc : c.toNat < 0x20
    · rw [if_pos hc, scan_unicode hc, Char.ofNat_toNat]
    · rw [if_neg hc, String.toList_singleton, List.singleton_append, scan, Mode.step?,
        if_neg (by simpa using hquote), if_neg (by simpa using hslash), if_neg hc]

theorem scan_escapes (cs : List Char) (s : StringState) (done : List Token) (rest : List Char) :
    scan (.string s) done (cs.flatMap (fun c => (escape c).toList) ++ rest) =
      scan (.string (cs.foldl .push s)) done rest := by
  induction cs generalizing s with
  | nil => rfl
  | cons c cs ih => rw [List.flatMap_cons, List.append_assoc, scan_escape, ih, List.foldl_cons]

theorem toList_quote (s : String) :
    (quote s).toList = '"' :: (s.toList.flatMap (fun c => (escape c).toList) ++ ['"']) := by
  have general : ∀ (cs : List Char) (text : String),
      (cs.foldl (fun text c => text ++ escape c) text).toList =
        text.toList ++ cs.flatMap fun c => (escape c).toList := by
    intro cs
    induction cs with
    | nil => simp
    | cons c cs ih => simp [ih]
  simp [quote, general]

theorem value?_pushes (cs : List Char) :
    (cs.foldl StringState.push {}).value? = some (String.ofList cs) := by
  have general : ∀ done : List Char,
      cs.foldl StringState.push { done := done } = { done := cs.reverse ++ done } := by
    induction cs with
    | nil => simp
    | cons c cs ih => simp [StringState.push, ih]
  rw [general]
  simp [StringState.value?]

theorem Scans.quote {text : List Char} {tokens : List Token} (s : String)
    (h : Scans text tokens) : Scans ((quote s).toList ++ text) (.string (some s) :: tokens) := by
  intro done rest hr
  have hopen : plain? done '"' = some (.string {}, done) := rfl
  rw [toList_quote, List.cons_append, List.cons_append, scan, Mode.step?, hopen]
  dsimp only
  rw [List.append_assoc, List.append_assoc, scan_escapes, List.singleton_append, scan, Mode.step?,
    if_pos (beq_self_eq_true _), value?_pushes, String.ofList_toList]
  dsimp only
  rw [h _ rest hr]
  simp

/-! ## Values -/

/-- The tokens make up the value, wherever a value may stand. -/
def Builds (tokens : List Token) (v : Json) : Prop :=
  ∀ stack, tokens.foldlM State.step (.value stack) = State.deliver v stack

theorem Builds.item {tokens : List Token} {v : Json} (h : Builds tokens v) (stack : List Frame) :
    tokens.foldlM State.step (.item stack) = State.deliver v stack := by
  cases tokens with
  | nil => exact absurd (h []) (by simp [State.deliver])
  | cons t tokens =>
    have hstep : State.step (.item stack) t = State.step (.value stack) t := by
      cases t with
      | closeArray => exact absurd (h []) (by simp [State.step, State.start, State.deliver])
      | _ => rfl
    rw [List.foldlM_cons, hstep, ← List.foldlM_cons]
    exact h stack

theorem Builds.scalar (v : Json) : Builds [.scalar v] v := by
  intro stack
  simp [State.step, State.start]

theorem Builds.string (s : String) : Builds [.string (some s)] (.string s) := by
  intro stack
  simp [State.step, State.start]

theorem foldlM_joined {α : Type} (complete resume : List α → State)
    (hcomma : ∀ done, State.step (complete done) .comma = some (resume done))
    {parts : List (List Token)} {items : List α}
    (hparts : List.Forall₂ (fun part x => ∀ done,
      part.foldlM State.step (resume done) = some (complete (x :: done))) parts items)
    {state : State} {first : List Token} {x : α} {done : List α}
    (hfirst : first.foldlM State.step state = some (complete (x :: done))) :
    ([Token.comma].intercalate (first :: parts)).foldlM State.step state =
      some (complete ((x :: items).reverse ++ done)) := by
  induction hparts generalizing state first x done with
  | nil => simpa [List.intercalate] using hfirst
  | cons hpart _ ih =>
    rw [List.intercalate_cons_cons, List.append_assoc, List.foldlM_append, hfirst]
    simp only [Option.bind_eq_bind, Option.bind_some, List.singleton_append, List.foldlM_cons,
      hcomma]
    rw [ih (hpart _)]
    simp

theorem Builds.array {parts : List (List Token)} {items : List Json}
    (h : List.Forall₂ Builds parts items) :
    Builds (.openArray :: ([Token.comma].intercalate parts ++ [.closeArray])) (.array items) := by
  intro stack
  cases h with
  | nil => simp [List.intercalate, State.step, State.start, State.close]
  | @cons first x parts items hfirst hrest =>
    have hparts := hrest.imp fun part x hpart done => hpart (.array done :: stack)
    have hjoined := foldlM_joined (fun done => .next (.array done :: stack))
      (fun done => .value (.array done :: stack)) (fun _ => rfl) hparts
      (hfirst.item (.array [] :: stack))
    rw [List.foldlM_cons, State.step, State.start]
    simp only [Option.bind_eq_bind, Option.bind_some, List.foldlM_append, hjoined]
    simp [State.step, State.close]

def BuildsField (tokens : List Token) (field : String × Json) : Prop :=
  ∃ value, tokens = .string (some field.1) :: .colon :: value ∧ Builds value field.2

theorem BuildsField.foldlM {tokens : List Token} {field : String × Json}
    (h : BuildsField tokens field) {s : State} {done : List (String × Json)}
    {stack : List Frame}
    (hkey : ∀ k, State.step s (.string k) = some (.colon (.object (some done) :: stack) k)) :
    tokens.foldlM State.step s = some (.next (.object (some (field :: done)) :: stack)) := by
  obtain ⟨value, rfl, hvalue⟩ := h
  rw [List.foldlM_cons, hkey, Option.bind_eq_bind, Option.bind_some, List.foldlM_cons, State.step,
    Option.bind_eq_bind, Option.bind_some, hvalue]
  rfl

theorem Builds.object {parts : List (List Token)} {fields : List (String × Json)}
    (h : List.Forall₂ BuildsField parts fields) :
    Builds (.openObject :: ([Token.comma].intercalate parts ++ [.closeObject]))
      (.object fields) := by
  intro stack
  cases h with
  | nil => simp [List.intercalate, State.step, State.start, State.close, OpenFields.close]
  | @cons first x parts fields hfirst hrest =>
    have hparts := hrest.imp fun part x (hpart : BuildsField part x) done =>
      hpart.foldlM (s := .key (.object (some done) :: stack)) fun _ => rfl
    have hjoined := foldlM_joined (fun done => .next (.object (some done) :: stack))
      (fun done => .key (.object (some done) :: stack)) (fun _ => rfl) hparts
      (hfirst.foldlM (s := .member (.object (some []) :: stack)) fun _ => rfl)
    rw [List.foldlM_cons, State.step, State.start]
    simp only [Option.bind_eq_bind, Option.bind_some, List.foldlM_append, hjoined]
    simp [State.step, State.close, OpenFields.close]

/-! ## Documents -/

/-- The text stands for the value. -/
def Denotes (text : List Char) (v : Json) : Prop :=
  ∃ tokens, Scans text tokens ∧ Builds tokens v

def DenotesField (text : List Char) (field : String × Json) : Prop :=
  ∃ tokens, Scans text tokens ∧ BuildsField tokens field

theorem Denotes.read {text : List Char} {v : Json} (h : Denotes text v) : read text = some v := by
  obtain ⟨tokens, hscan, hbuild⟩ := h
  have hs : scan .between [] text = some tokens := by
    have he := hscan [] [] (by simp [Ends])
    rw [List.append_nil] at he
    simpa [scan, Mode.finish?] using he
  simp [Json.read, hs, ofTokens?, hbuild [], State.deliver]

theorem Denotes.atom {text : List Char} {v : Json} (hc : text.all isAtomChar = true)
    (hne : text ≠ []) (hv : atom? text = some v) : Denotes text v :=
  ⟨[.scalar v], .atom (List.all_eq_true.mp hc) hne hv, .scalar v⟩

theorem Denotes.quote (s : String) : Denotes (quote s).toList (.string s) := by
  refine ⟨[.string (some s)], ?_, .string s⟩
  simpa using Scans.nil.quote s

theorem Ends.spaces {cs text : List Char} (hc : ∀ c ∈ cs, isSpace c = true) (h : Ends text) :
    Ends (cs ++ text) := by
  cases cs with
  | nil => exact h
  | cons c cs =>
    rintro d ⟨⟩
    have hd := hc c (by simp)
    simp only [isSpace, Bool.or_eq_true, beq_iff_eq] at hd
    obtain ((rfl | rfl) | rfl) | rfl := hd <;> decide

theorem Scans.joined {gap : List Char} (hgap : ∀ c ∈ gap, isSpace c = true)
    {texts : List (List Char)} {parts : List (List Token)} (h : List.Forall₂ Scans texts parts)
    {text : List Char} {tokens : List Token} (ht : Scans text tokens) (he : Ends text) :
    Scans ((',' :: gap).intercalate texts ++ text)
      ([Token.comma].intercalate parts ++ tokens) := by
  induction h with
  | nil => simpa [List.intercalate] using ht
  | @cons first part texts parts hfirst hrest ih =>
    cases hrest with
    | nil => simpa [List.intercalate] using hfirst.append ht he
    | cons =>
      rw [List.intercalate_cons_cons, List.intercalate_cons_cons]
      simp only [List.append_assoc, List.cons_append, List.nil_append]
      exact hfirst.append (.mark (fun _ => rfl) (.spaces hgap ih)) (by simp [Ends]; decide)

theorem exists_forall₂ {α β γ : Type} {r : α → β → Prop} {s : β → γ → Prop} {as : List α}
    {cs : List γ} (h : List.Forall₂ (fun a c => ∃ b, r a b ∧ s b c) as cs) :
    ∃ bs, List.Forall₂ r as bs ∧ List.Forall₂ s bs cs := by
  induction h with
  | nil => exact ⟨[], .nil, .nil⟩
  | cons hhead _ ih =>
    obtain ⟨b, hr, hs⟩ := hhead
    obtain ⟨bs, hrs, hss⟩ := ih
    exact ⟨b :: bs, .cons hr hrs, .cons hs hss⟩

/-- What stands between the brackets of an array or object: a gap, the parts with a comma and a
gap behind all but the last one, and a gap. -/
def enclosed (gap last : List Char) (texts : List (List Char)) (close : Char) : List Char :=
  gap ++ ((',' :: gap).intercalate texts ++ (last ++ [close]))

theorem Scans.enclosed {gap last : List Char} (hgap : ∀ c ∈ gap, isSpace c = true)
    (hlast : ∀ c ∈ last, isSpace c = true) {texts : List (List Char)} {parts : List (List Token)}
    (h : List.Forall₂ Scans texts parts) {close : Char} {t : Token}
    (hclose : ∀ done, plain? done close = some (.between, t :: done))
    (hatom : isAtomChar close = false) :
    Scans (enclosed gap last texts close) ([Token.comma].intercalate parts ++ [t]) := by
  apply Scans.spaces hgap
  apply Scans.joined hgap h
  · exact .spaces hlast (.mark hclose .nil)
  · apply Ends.spaces hlast
    rintro c ⟨⟩
    exact hatom

theorem Denotes.array (gap last : List Char) (hgap : ∀ c ∈ gap, isSpace c = true)
    (hlast : ∀ c ∈ last, isSpace c = true) {texts : List (List Char)} {items : List Json}
    (h : List.Forall₂ Denotes texts items) :
    Denotes ('[' :: enclosed gap last texts ']') (.array items) := by
  obtain ⟨parts, hscans, hbuilds⟩ := exists_forall₂ h
  exact ⟨_, .mark (fun _ => rfl) (.enclosed hgap hlast hscans (fun _ => rfl) (by decide)),
    .array hbuilds⟩

theorem Denotes.object (gap last : List Char) (hgap : ∀ c ∈ gap, isSpace c = true)
    (hlast : ∀ c ∈ last, isSpace c = true) {texts : List (List Char)}
    {fields : List (String × Json)} (h : List.Forall₂ DenotesField texts fields) :
    Denotes ('\x7b' :: enclosed gap last texts '\x7d') (.object fields) := by
  obtain ⟨parts, hscans, hbuilds⟩ := exists_forall₂ h
  exact ⟨_, .mark (fun _ => rfl) (.enclosed hgap hlast hscans (fun _ => rfl) (by decide)),
    .object hbuilds⟩

theorem Denotes.field (gap : List Char) (hgap : ∀ c ∈ gap, isSpace c = true) (k : String)
    {text : List Char} {v : Json} (h : Denotes text v) :
    DenotesField ((Json.quote k).toList ++ ':' :: (gap ++ text)) (k, v) := by
  obtain ⟨tokens, hscan, hbuild⟩ := h
  exact ⟨_, .quote k (.mark (fun _ => rfl) (.spaces hgap hscan)), tokens, rfl, hbuild⟩

mutual

/-- Values that have a written form, with numbers that fit in 64 bits. -/
def Plain : Json → Prop
  | .int n => 0 ≤ n ∧ n < 2 ^ 64
  | .array items => PlainItems items
  | .object fields => PlainFields fields
  | .real => False
  | .void => False
  | _ => True

def PlainItems : List Json → Prop
  | [] => True
  | v :: rest => Plain v ∧ PlainItems rest

def PlainFields : List (String × Json) → Prop
  | [] => True
  | (_, v) :: rest => Plain v ∧ PlainFields rest

end

theorem isSpace_of_mem_newline {level : Nat} {c : Char} (h : c ∈ (newline level).toList) :
    isSpace c = true := by
  simp only [newline, String.toList_append, String.toList_ofList, List.mem_append,
    List.mem_replicate] at h
  obtain h | ⟨-, rfl⟩ := h
  · simp at h
    subst h
    decide
  · decide

theorem isAtomChar_of_mem_decimal {n : Nat} {c : Char} (h : c ∈ (decimal n).toList) :
    isAtomChar c = true := by
  simp [isAtomChar, Char.isAlphanum, isDigit_of_mem_decimal h]

theorem denotes_scalarText {v : Json} (h : v.Plain) (ha : ∀ items, v ≠ .array items)
    (ho : ∀ fields, v ≠ .object fields) : Denotes (scalarText v).toList v := by
  cases v with
  | null =>
    have ht : (scalarText .null).toList = ['n', 'u', 'l', 'l'] := by simp [scalarText]
    rw [ht]
    exact .atom (by decide) (by decide) rfl
  | bool b =>
    cases b with
    | true =>
      have ht : (scalarText (.bool true)).toList = ['t', 'r', 'u', 'e'] := by simp [scalarText]
      rw [ht]
      exact .atom (by decide) (by decide) rfl
    | false =>
      have ht : (scalarText (.bool false)).toList = ['f', 'a', 'l', 's', 'e'] := by
        simp [scalarText]
      rw [ht]
      exact .atom (by decide) (by decide) rfl
  | int n =>
    obtain ⟨hn, hlt⟩ := h
    obtain ⟨m, rfl⟩ := Int.eq_ofNat_of_zero_le hn
    rw [scalarText, decimalInt, if_neg (by omega), Int.natAbs_natCast]
    exact .atom (List.all_eq_true.mpr fun c hc => isAtomChar_of_mem_decimal hc)
      (decimal_ne_nil m) (atom?_decimal (by omega))
  | string s => exact .quote s
  | array items => exact absurd rfl (ha items)
  | object fields => exact absurd rfl (ho fields)
  | real => exact h.elim
  | void => exact h.elim

theorem toList_prettyAt_array (level : Nat) (v : Json) (items : List Json) :
    (prettyAt level (.array (v :: items))).toList =
      '[' :: enclosed (newline (level + 1)).toList (newline level).toList
        ((prettyItems (level + 1) (v :: items)).map String.toList) ']' := by
  rw [prettyAt]
  · simp [enclosed, String.toList_intercalate]
  · simp

theorem toList_prettyAt_object (level : Nat) (field : String × Json)
    (fields : List (String × Json)) :
    (prettyAt level (.object (field :: fields))).toList =
      '\x7b' :: enclosed (newline (level + 1)).toList (newline level).toList
        ((prettyFields (level + 1) (field :: fields)).map String.toList) '\x7d' := by
  rw [prettyAt]
  · simp [enclosed, String.toList_intercalate]
  · simp

mutual

theorem denotes_prettyAt (level : Nat) :
    (v : Json) → v.Plain → Denotes (prettyAt level v).toList v
  | .array [], _ => by
    have ht : (prettyAt level (.array [])).toList = '[' :: enclosed [] [] [] ']' := by
      simp [prettyAt, enclosed, List.intercalate]
    rw [ht]
    exact .array [] [] (by simp) (by simp) .nil
  | .array (v :: items), h => by
    rw [toList_prettyAt_array]
    exact .array _ _ (fun _ => isSpace_of_mem_newline) (fun _ => isSpace_of_mem_newline)
      (List.forall₂_map_left_iff.mpr (denotes_prettyItems (level + 1) (v :: items) h))
  | .object [], _ => by
    have ht : (prettyAt level (.object [])).toList = '\x7b' :: enclosed [] [] [] '\x7d' := by
      simp [prettyAt, enclosed, List.intercalate]
    rw [ht]
    exact .object [] [] (by simp) (by simp) .nil
  | .object (field :: fields), h => by
    rw [toList_prettyAt_object]
    exact .object _ _ (fun _ => isSpace_of_mem_newline) (fun _ => isSpace_of_mem_newline)
      (List.forall₂_map_left_iff.mpr (denotes_prettyFields (level + 1) (field :: fields) h))
  | .null, h => denotes_scalarText h (by simp) (by simp)
  | .bool _, h => denotes_scalarText h (by simp) (by simp)
  | .int _, h => denotes_scalarText h (by simp) (by simp)
  | .string _, h => denotes_scalarText h (by simp) (by simp)
  | .real, h => h.elim
  | .void, h => h.elim

theorem denotes_prettyItems (level : Nat) : (items : List Json) → PlainItems items →
    List.Forall₂ (fun text v => Denotes text.toList v) (prettyItems level items) items
  | [], _ => .nil
  | v :: items, h => .cons (denotes_prettyAt level v h.1) (denotes_prettyItems level items h.2)

theorem denotes_prettyFields (level : Nat) : (fields : List (String × Json)) →
    PlainFields fields →
    List.Forall₂ (fun text field => DenotesField text.toList field) (prettyFields level fields)
      fields
  | [], _ => .nil
  | (k, v) :: fields, h => by
    have hfield := (denotes_prettyAt level v h.1).field [' '] (by simp [isSpace]) k
    refine .cons ?_ (denotes_prettyFields level fields h.2)
    simpa using hfield

end

theorem read_pretty {v : Json} (h : v.Plain) : read (pretty v).toList = some v :=
  (denotes_prettyAt 0 v h).read

end Json

end Wordcode
