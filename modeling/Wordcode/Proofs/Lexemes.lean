import Wordcode.Formula.Reader
import Wordcode.Proofs.Numerals

namespace Wordcode.Formula

def symbols : List Char :=
  ['+', '-', '*', '/', '(', ')']

namespace Lexeme

def chars : Lexeme → List Char
  | .number digits => digits
  | .name letters => letters
  | .symbol c => [c]

def IsProper : Lexeme → Prop
  | .number digits => digits ≠ [] ∧ ∀ c ∈ digits, isDecimal c = true
  | .name letters => ∃ c rest, letters = c :: rest ∧ isNameStart c = true ∧
      ∀ d ∈ rest, isNameChar d = true
  | .symbol c => c ∈ symbols

/-- The text behind the lexeme does not continue it. -/
def Ends (rest : List Char) : Lexeme → Prop
  | .number _ => ∀ c ∈ rest.head?, isDecimal c = false
  | .name _ => ∀ c ∈ rest.head?, isNameChar c = false
  | .symbol _ => True

def IsSymbol : Lexeme → Prop
  | .symbol _ => True
  | _ => False

/-- The lexemes are told apart without a blank between them. -/
def Parted (l k : Lexeme) : Prop :=
  l.IsSymbol ∨ k.IsSymbol

end Lexeme

/-- A text is made of these lexemes, each as long as it can be, and of blanks. -/
inductive Lexes : List Char → List Lexeme → Prop
  | nil : Lexes [] []
  | blank {c : Char} {cs : List Char} {ls : List Lexeme} (hc : isBlank c = true)
      (h : Lexes cs ls) : Lexes (c :: cs) ls
  | lexeme {l : Lexeme} {cs : List Char} {ls : List Lexeme} (hl : l.IsProper)
      (he : l.Ends cs) (h : Lexes cs ls) : Lexes (l.chars ++ cs) (l :: ls)

/-- A text has these lexemes in order, with any blanks, or none, around each of them. -/
inductive Spaced : List Lexeme → List Char → Prop
  | nil {gap : List Char} (hg : ∀ c ∈ gap, isBlank c = true) : Spaced [] gap
  | cons {gap cs : List Char} {l : Lexeme} {ls : List Lexeme}
      (hg : ∀ c ∈ gap, isBlank c = true) (hl : l.IsProper) (h : Spaced ls cs) :
      Spaced (l :: ls) (gap ++ (l.chars ++ cs))

theorem isWordChar_of_isNameChar {c : Char} (h : isNameChar c = true) :
    Token.isWordChar c = true := by
  simp only [isNameChar, Bool.or_eq_true] at h
  obtain ha | hu := h
  · simp [Token.isWordChar, ha]
  · simp [Token.isWordChar, hu]

theorem isNameChar_of_isNameStart {c : Char} (h : isNameStart c = true) :
    isNameChar c = true := by
  simp only [isNameStart, Bool.or_eq_true] at h
  obtain ha | hu := h
  · simp [isNameChar, Char.isAlphanum, ha]
  · simp [isNameChar, hu]

theorem isDecimal_of_isNameStart {c : Char} (h : isNameStart c = true) : isDecimal c = false := by
  rw [Bool.eq_false_iff]
  intro hd
  have hb := Char.isDigit_iff_toNat.mp (isDigit_of_isDecimal hd)
  simp only [isNameStart, Bool.or_eq_true, beq_iff_eq] at h
  obtain ha | rfl := h
  · simp [Char.isAlpha, Char.isUpper, Char.isLower, UInt32.le_iff_toNat_le] at ha hb
    omega
  · exact absurd hb (by decide)

theorem not_isNameChar_of_isBlank {c : Char} (h : isBlank c = true) :
    isDecimal c = false ∧ isNameChar c = false := by
  constructor
  · rw [Bool.eq_false_iff]
    intro hd
    rw [Token.isBlank_of_isWordChar (isWordChar_of_digit hd)] at h
    cases h
  · rw [Bool.eq_false_iff]
    intro hn
    rw [Token.isBlank_of_isWordChar (isWordChar_of_isNameChar hn)] at h
    cases h

theorem classes_of_mem_symbols {c : Char} (h : c ∈ symbols) :
    isBlank c = false ∧ isDecimal c = false ∧ isNameChar c = false := by
  simp only [symbols, List.mem_cons, List.not_mem_nil, or_false] at h
  obtain rfl | rfl | rfl | rfl | rfl | rfl := h <;> decide

namespace Pending

def continues : Pending → Char → Bool
  | .none, _ => false
  | .number _ _, c => isDecimal c
  | .name _ _, c => isNameChar c

def push : Pending → Char → Pending
  | .none, _ => .none
  | .number start cs, c => .number start (c :: cs)
  | .name start cs, c => .name start (c :: cs)

theorem continues_push (p : Pending) (c : Char) : (p.push c).continues = p.continues := by
  cases p <;> rfl

theorem step_of_continues {p : Pending} {c : Char} (h : p.continues c = true) (offset : Nat)
    (done : List Token) : p.step offset done c = (p.push c, done) := by
  cases p with
  | none => cases h
  | number start cs => exact if_pos h
  | name start cs => exact if_pos h

theorem step_of_not_continues {p : Pending} {c : Char} (h : p.continues c = false) (offset : Nat)
    (done : List Token) : p.step offset done c = begin offset (p.flush done) c := by
  have hn : ¬ p.continues c = true := by simp [h]
  cases p with
  | none => rfl
  | number start cs => exact if_neg hn
  | name start cs => exact if_neg hn

theorem foldl_push {f : List Char → Pending} (hf : ∀ cs c, (f cs).push c = f (c :: cs))
    (cs ds : List Char) : ds.foldl push (f cs) = f (ds.reverse ++ cs) := by
  induction ds generalizing cs with
  | nil => rfl
  | cons d ds ih =>
    rw [List.foldl_cons, hf, ih, List.reverse_cons, List.append_assoc, List.singleton_append]

end Pending

theorem scan_cons (offset : Nat) (p : Pending) (done : List Token) (c : Char) (cs : List Char) :
    scan offset p done (c :: cs) =
      scan (offset + 1) (p.step offset done c).1 (p.step offset done c).2 cs :=
  rfl

theorem scan_push {p : Pending} {ds : List Char} (h : ∀ d ∈ ds, p.continues d = true)
    (offset : Nat) (done : List Token) (cs : List Char) :
    scan offset p done (ds ++ cs) = scan (offset + ds.length) (ds.foldl Pending.push p) done cs := by
  induction ds generalizing p offset with
  | nil => rfl
  | cons d ds ih =>
    rw [List.forall_mem_cons] at h
    have htail : ∀ c ∈ ds, (p.push d).continues c = true := by
      rw [Pending.continues_push]
      exact h.2
    rw [List.cons_append, scan_cons, Pending.step_of_continues h.1, ih htail, List.foldl_cons,
      List.length_cons, Nat.add_assoc, Nat.add_comm 1]

theorem scan_flush {p : Pending} {cs : List Char} (h : ∀ c ∈ cs.head?, p.continues c = false)
    (offset : Nat) (done : List Token) :
    scan offset p done cs = scan offset .none (p.flush done) cs := by
  cases cs with
  | nil => rfl
  | cons c cs =>
    have hc : p.continues c = false := h c rfl
    rw [scan_cons, scan_cons, Pending.step_of_not_continues hc]
    rfl

theorem scan_begin {p : Pending} {c : Char} {ds cs : List Char} {offset : Nat}
    {done : List Token} (hb : begin offset done c = (p, done))
    (hd : ∀ d ∈ ds, p.continues d = true) (he : ∀ d ∈ cs.head?, p.continues d = false) :
    scan offset .none done (c :: ds ++ cs) =
      scan (offset + 1 + ds.length) .none ((ds.foldl Pending.push p).flush done) cs := by
  have hend : (ds.foldl Pending.push p).continues = p.continues := by
    clear hb hd he
    induction ds generalizing p with
    | nil => rfl
    | cons d ds ih => rw [List.foldl_cons, ih, Pending.continues_push]
  have hstep : Pending.none.step offset done c = (p, done) := hb
  rw [List.cons_append, scan_cons, hstep, scan_push hd, scan_flush (by rwa [hend])]

theorem scan_lexeme {l : Lexeme} {cs : List Char} (hl : l.IsProper) (he : l.Ends cs)
    (offset : Nat) (done : List Token) :
    ∃ offset', scan offset .none done (l.chars ++ cs) = scan offset' .none (⟨offset, l⟩ :: done) cs := by
  cases l with
  | number digits =>
    obtain ⟨hne, hd⟩ := hl
    cases digits with
    | nil => exact absurd rfl hne
    | cons d ds =>
      rw [List.forall_mem_cons] at hd
      have hb : begin offset done d = (.number offset [d], done) := by
        rw [begin, if_neg (by simp [Token.isBlank_of_isWordChar (isWordChar_of_digit hd.1)]),
          if_pos hd.1]
      have hpush := Pending.foldl_push (f := .number offset) (fun _ _ => rfl) [d] ds
      refine ⟨offset + 1 + ds.length, (scan_begin hb hd.2 he).trans ?_⟩
      simp [hpush, Pending.flush]
  | name letters =>
    obtain ⟨c, rest, rfl, hc, hd⟩ := hl
    have hb : begin offset done c = (.name offset [c], done) := by
      have hword := isWordChar_of_isNameChar (isNameChar_of_isNameStart hc)
      rw [begin, if_neg (by simp [Token.isBlank_of_isWordChar hword]),
        if_neg (by simp [isDecimal_of_isNameStart hc]), if_pos hc]
    have hpush := Pending.foldl_push (f := .name offset) (fun _ _ => rfl) [c] rest
    refine ⟨offset + 1 + rest.length, (scan_begin hb hd he).trans ?_⟩
    simp [hpush, Pending.flush]
  | symbol c =>
    obtain ⟨hblank, hdigit, hname⟩ := classes_of_mem_symbols hl
    have hstart : isNameStart c = false := by
      rw [Bool.eq_false_iff]
      intro hs
      rw [isNameChar_of_isNameStart hs] at hname
      cases hname
    exact ⟨offset + 1, by simp [Lexeme.chars, scan, Pending.step, begin, hblank, hdigit, hstart]⟩

theorem Lexes.scan {cs : List Char} {ls : List Lexeme} (h : Lexes cs ls) (offset : Nat)
    (done : List Token) :
    (scan offset .none done cs).map Token.lexeme = done.reverse.map Token.lexeme ++ ls := by
  induction h generalizing offset done with
  | nil => simp [Formula.scan, Pending.flush]
  | blank hc h ih =>
    rw [scan_cons]
    simp only [Pending.step, begin, hc, if_true]
    exact ih (offset + 1) done
  | lexeme hl he h ih =>
    obtain ⟨offset', hs⟩ := scan_lexeme hl he offset done
    rw [hs, ih]
    simp

theorem mem_begin {t : Token} {done : List Token} (h : t ∈ done) (offset : Nat) (c : Char) :
    t ∈ (begin offset done c).2 := by
  unfold begin
  split
  · exact h
  split
  · exact h
  split
  · exact h
  · exact List.mem_cons_of_mem _ h

theorem mem_flush {t : Token} {done : List Token} (h : t ∈ done) (p : Pending) :
    t ∈ p.flush done := by
  cases p with
  | none => exact h
  | number start cs => exact List.mem_cons_of_mem _ h
  | name start cs => exact List.mem_cons_of_mem _ h

theorem mem_scan {t : Token} {done : List Token} (h : t ∈ done) (offset : Nat) (p : Pending)
    (cs : List Char) : t ∈ scan offset p done cs := by
  induction cs generalizing offset p done with
  | nil => simpa [scan] using mem_flush h p
  | cons c cs ih =>
    rw [scan_cons]
    apply ih
    cases hc : p.continues c with
    | true => rwa [Pending.step_of_continues hc]
    | false =>
      rw [Pending.step_of_not_continues hc]
      exact mem_begin (mem_flush h p) offset c

theorem not_of_mem_head?_dropWhile {p : Char → Bool} {cs : List Char} :
    ∀ c ∈ (cs.dropWhile p).head?, p c = false := by
  intro c hc
  have h := List.head?_dropWhile_not p cs
  rwa [hc] at h

theorem exists_lexes {cs : List Char} {offset : Nat} {done : List Token}
    (h : ∀ t ∈ scan offset .none done cs, ∀ c, t.lexeme = .symbol c → c ∈ symbols) :
    ∃ ls, Lexes cs ls := by
  induction hn : cs.length using Nat.strong_induction_on generalizing cs offset done with
  | _ n ih =>
    have hfront : ∀ {l : Lexeme} {r : List Char}, cs = l.chars ++ r → r.length < n →
        l.IsProper → l.Ends r → ∃ ls, Lexes cs ls := by
      intro l r hcs hlt hl he
      subst hcs
      obtain ⟨offset', hs⟩ := scan_lexeme hl he offset done
      rw [hs] at h
      obtain ⟨ls, hls⟩ := ih r.length hlt h rfl
      exact ⟨l :: ls, .lexeme hl he hls⟩
    cases cs with
    | nil => exact ⟨[], .nil⟩
    | cons c rest =>
      by_cases hb : isBlank c = true
      · rw [scan_cons] at h
        simp only [Pending.step, begin, hb, if_true] at h
        obtain ⟨ls, hls⟩ := ih rest.length (by simp [← hn]) h rfl
        exact ⟨ls, .blank hb hls⟩
      by_cases hd : isDecimal c = true
      · apply hfront (l := .number (c :: rest.takeWhile isDecimal))
          (r := rest.dropWhile isDecimal)
        · simp [Lexeme.chars, List.takeWhile_append_dropWhile]
        · exact (List.length_dropWhile_le _ _).trans_lt (by simp [← hn])
        · refine ⟨List.cons_ne_nil _ _, List.forall_mem_cons.mpr ⟨hd, ?_⟩⟩
          exact fun d hm => List.mem_takeWhile_imp hm
        · exact not_of_mem_head?_dropWhile
      by_cases hs : isNameStart c = true
      · apply hfront (l := .name (c :: rest.takeWhile isNameChar))
          (r := rest.dropWhile isNameChar)
        · simp [Lexeme.chars, List.takeWhile_append_dropWhile]
        · exact (List.length_dropWhile_le _ _).trans_lt (by simp [← hn])
        · exact ⟨c, _, rfl, hs, fun d hm => List.mem_takeWhile_imp hm⟩
        · exact not_of_mem_head?_dropWhile
      · have hscan : scan offset .none done (c :: rest) =
            scan (offset + 1) .none (⟨offset, .symbol c⟩ :: done) rest := by
          simp [scan_cons, Pending.step, begin, hb, hd, hs]
        have hc : c ∈ symbols := by
          rw [hscan] at h
          exact h _ (mem_scan List.mem_cons_self _ _ _) c rfl
        exact hfront (l := .symbol c) rfl (by simp [← hn]) hc trivial

theorem Lexes.append_blanks {gap cs : List Char} {ls : List Lexeme}
    (hg : ∀ c ∈ gap, isBlank c = true) (h : Lexes cs ls) : Lexes (gap ++ cs) ls := by
  induction gap with
  | nil => exact h
  | cons c gap ih =>
    rw [List.forall_mem_cons] at hg
    exact .blank hg.1 (ih hg.2)

theorem Spaced.ends {l : Lexeme} {ls : List Lexeme} {cs : List Char} (h : Spaced ls cs)
    (hp : ∀ k ∈ ls.head?, l.Parted k) : l.Ends cs := by
  have hblank : ∀ {gap : List Char} {c : Char}, (∀ d ∈ gap, isBlank d = true) →
      c ∈ gap.head? → isDecimal c = false ∧ isNameChar c = false :=
    fun hg hc => not_isNameChar_of_isBlank (hg _ (List.mem_of_mem_head? hc))
  have hhead : l.IsSymbol ∨ ∀ c ∈ cs.head?, isDecimal c = false ∧ isNameChar c = false := by
    cases h with
    | nil hg => exact .inr fun c hc => hblank hg hc
    | @cons gap cs k ls hg hk h =>
      cases hp k rfl with
      | inl hl => exact .inl hl
      | inr hsymbol =>
        cases k with
        | number digits => cases hsymbol
        | name letters => cases hsymbol
        | symbol s =>
          refine .inr fun c hc => ?_
          cases gap with
          | nil =>
            obtain rfl : s = c := by simpa [Lexeme.chars] using hc
            exact (classes_of_mem_symbols hk).2
          | cons d gap => exact hblank hg (by simpa using hc)
  cases l with
  | number digits => exact fun c hc => ((hhead.resolve_left id) c hc).1
  | name letters => exact fun c hc => ((hhead.resolve_left id) c hc).2
  | symbol s => trivial

theorem Spaced.lexes {ls : List Lexeme} {cs : List Char} (h : Spaced ls cs)
    (hp : ls.IsChain Lexeme.Parted) : Lexes cs ls := by
  induction h with
  | nil hg => simpa using Lexes.nil.append_blanks hg
  | cons hg hl h ih =>
    obtain ⟨hhead, htail⟩ := List.isChain_cons.mp hp
    exact .append_blanks hg (.lexeme hl (h.ends hhead) (ih htail))

end Wordcode.Formula
