import Wordcode.Proofs.Spelling

namespace Wordcode

namespace Token

theorem first_done (i : Nat) (done : List Token) (c : Char) :
    first i done c = ((first i [] c).1, (first i [] c).2 ++ done) := by
  unfold first
  repeat' split
  all_goals rfl

theorem step_done (mode : Mode) (i : Nat) (done : List Token) (c : Char) :
    mode.step i done c = ((mode.step i [] c).1, (mode.step i [] c).2 ++ done) := by
  cases mode with
  | between => exact first_done i done c
  | word start name =>
    simp only [Mode.step]
    rw [first_done i (_ :: done), first_done i [_]]
    repeat' split
    all_goals simp
  | operand w start item items =>
    simp only [Mode.step]
    rw [first_done i (_ :: done), first_done i [_]]
    repeat' split
    all_goals simp
  | applied w =>
    simp only [Mode.step]
    rw [first_done i (_ :: done), first_done i [_]]
    repeat' split
    all_goals simp
  | group depth =>
    simp only [Mode.step]
    repeat' split
    all_goals simp
  | angle start =>
    simp only [Mode.step]
    split <;> simp

theorem finish_done (mode : Mode) (i : Nat) (done : List Token) :
    mode.finish i done = mode.finish i [] ++ done := by
  cases mode <;> simp [Mode.finish]

theorem scanFrom_done (i : Nat) (mode : Mode) (done : List Token) (cs : List Char) :
    scanFrom i mode done cs = done.reverse ++ scanFrom i mode [] cs := by
  induction cs generalizing i mode done with
  | nil =>
    simp only [scanFrom]
    rw [finish_done]
    simp
  | cons c cs ih =>
    simp only [scanFrom]
    rw [step_done mode i done c]
    dsimp only
    rw [ih, ih (i + 1) _ (mode.step i [] c).2]
    simp

/-- The text ends a word that stands before it, and opens no call. -/
def Ends (rest : List Char) : Prop :=
  ∀ c, rest.head? = some c → isWordChar c = false ∧ c ≠ '(' ∧ c ≠ '<'

theorem ends_nil : Ends [] := by
  simp [Ends]

theorem ends_blank (rest : List Char) : Ends (' ' :: rest) := by
  simp [Ends]
  decide

theorem ends_close (rest : List Char) : Ends (')' :: rest) := by
  simp [Ends]
  decide

variable (i : Nat)

theorem scan_blank (rest : List Char) :
    scanFrom i .between [] (' ' :: rest) = scanFrom (i + 1) .between [] rest := by
  rfl

theorem scan_close (rest : List Char) :
    scanFrom i .between [] (')' :: rest) = .close i :: scanFrom (i + 1) .between [] rest := by
  have hs : Mode.between.step i [] ')' = (.between, [.close i]) := rfl
  rw [scanFrom, hs]
  dsimp only
  rw [scanFrom_done]
  rfl

theorem scan_word_append {w : List Char} (hw : ∀ c ∈ w, isWordChar c = true) (start : Nat)
    (name rest : List Char) :
    scanFrom i (.word start name) [] (w ++ rest) =
      scanFrom (i + w.length) (.word start (w.reverse ++ name)) [] rest := by
  induction w generalizing i name with
  | nil => rfl
  | cons c w ih =>
    have hc := hw c (by simp)
    have hs : (Mode.word start name).step i [] c = (.word start (c :: name), []) := by
      simp [Mode.step, hc]
    rw [List.cons_append, scanFrom, hs]
    dsimp only
    rw [ih (i + 1) fun d hd => hw d (by simp [hd])]
    simp [Nat.add_assoc, Nat.add_comm 1]

theorem first_of_isWordChar {c : Char} (hc : isWordChar c = true) :
    first i [] c = (.word i [c], []) := by
  have hb := isBlank_of_isWordChar hc
  have hne : ∀ d ∈ ['(', ')', '<', '>', ',', ':', ';', '*', '/'], c ≠ d :=
    fun d hd => isWordChar_ne hc hd
  simp [first, hb, hc, hne]

theorem scan_word {w : List Char} (hw : IsWord w) (rest : List Char) :
    scanFrom i .between [] (w ++ rest) = scanFrom (i + w.length) (.word i w.reverse) [] rest := by
  obtain ⟨hne, hw⟩ := hw
  cases w with
  | nil => exact absurd rfl hne
  | cons c w =>
    have hs : Mode.between.step i [] c = (.word i [c], []) := first_of_isWordChar i (hw c (by simp))
    rw [List.cons_append, scanFrom, hs]
    dsimp only
    rw [scan_word_append (i + 1) fun d hd => hw d (by simp [hd])]
    simp [Nat.add_assoc, Nat.add_comm 1]

theorem scan_word_end {rest : List Char} (h : Ends rest) (start : Nat) (name : List Char) :
    scanFrom i (.word start name) [] rest =
      .word (wordOf start name) :: scanFrom i .between [] rest := by
  cases rest with
  | nil => rfl
  | cons c rest =>
    obtain ⟨hw, hp, ha⟩ := h c rfl
    have hs : (Mode.word start name).step i [] c =
        ((Mode.between.step i [] c).1,
          (Mode.between.step i [] c).2 ++ [.word (wordOf start name)]) := by
      have hf : (Mode.word start name).step i [] c =
          first i [.word (wordOf start name)] c := by
        simp [Mode.step, hw, hp, ha]
      rw [hf]
      exact first_done i _ c
    rw [scanFrom, scanFrom, hs]
    dsimp only
    rw [scanFrom_done, scanFrom_done (i + 1) _ (Mode.between.step i [] c).2]
    simp

theorem scan_word_paren (start : Nat) (name rest : List Char) :
    scanFrom i (.word start name) [] ('(' :: rest) =
      .word { wordOf start name with paren := some i } :: scanFrom (i + 1) .between [] rest := by
  have hs : (Mode.word start name).step i [] '(' =
      (.between, [.word { wordOf start name with paren := some i }]) := rfl
  rw [scanFrom, hs]
  dsimp only
  rw [scanFrom_done]
  rfl

theorem scan_applied_paren (w : Word) (rest : List Char) :
    scanFrom i (.applied w) [] ('(' :: rest) =
      .word { w with paren := some i } :: scanFrom (i + 1) .between [] rest := by
  have hs : (Mode.applied w).step i [] '(' = (.between, [.word { w with paren := some i }]) := rfl
  rw [scanFrom, hs]
  dsimp only
  rw [scanFrom_done]
  rfl

theorem scan_operand_append {ds : List Char}
    (hd : ∀ c ∈ ds, isBlank c = false ∧ c ≠ '>' ∧ endsOperand c = false) (w : Word)
    (start : Nat) (item : List Char) (items : List Label) (rest : List Char) :
    scanFrom i (.operand w start item items) [] (ds ++ rest) =
      scanFrom (i + ds.length) (.operand w start (ds.reverse ++ item) items) [] rest := by
  induction ds generalizing i item with
  | nil => rfl
  | cons c ds ih =>
    obtain ⟨hb, ha, he⟩ := hd c (by simp)
    have hp : c ≠ '(' := by
      rintro rfl
      cases he
    have hs : (Mode.operand w start item items).step i [] c =
        (.operand w start (c :: item) items, []) := by
      simp [Mode.step, hb, ha, hp, he]
    rw [List.cons_append, scanFrom, hs]
    dsimp only
    rw [ih (i + 1) fun d hm => hd d (by simp [hm])]
    simp [Nat.add_assoc, Nat.add_comm 1]

theorem isItem_of_isWordChar {c : Char} (hc : isWordChar c = true) :
    isBlank c = false ∧ c ≠ '>' ∧ endsOperand c = false := by
  have hne : ∀ d ∈ ['(', ')', '<', '>', ',', ':', ';', '*', '/'], c ≠ d :=
    fun d hm => isWordChar_ne hc hm
  simp [isBlank_of_isWordChar hc, endsOperand, hne]

theorem scan_operand {words : List (List Char)} (hw : ∀ v ∈ words, IsWord v) (w : Word)
    (start : Nat) (items : List Label) (rest : List Char) :
    ∃ j t, scanFrom i (.operand w start [] items) [] (spaced words ++ '>' :: rest) =
        scanFrom j (.applied { w with operand := some t }) [] rest ∧
      t.isClosed = true ∧
      t.items.map (·.name) = items.reverse.map (·.name) ++ words.map String.ofList := by
  induction words generalizing i items with
  | nil => exact ⟨i + 1, ⟨start, i + 1, true, items.reverse⟩, rfl, rfl, by simp⟩
  | cons v words ih =>
    obtain ⟨hne, hv⟩ := hw v (by simp)
    have hitem := fun c hc => isItem_of_isWordChar (hv c hc)
    have hrev : v.reverse.isEmpty = false := by simpa using hne
    cases words with
    | nil =>
      refine ⟨i + v.length + 1, ⟨start, i + v.length + 1, true,
        (itemsAt (i + v.length) v.reverse items).reverse⟩, ?_, rfl, ?_⟩
      · rw [spaced_singleton, scan_operand_append i hitem, List.append_nil]
        rfl
      · simp [itemsAt, hrev, Segment.label]
    | cons u words =>
      obtain ⟨j, t, hs, hc, ht⟩ := ih (i + v.length + 1) (fun x hx => hw x (by simp [hx]))
        (itemsAt (i + v.length) v.reverse items)
      refine ⟨j, t, ?_, hc, ?_⟩
      · rw [← hs, spaced_cons_cons, List.append_assoc, scan_operand_append i hitem, List.append_nil]
        rfl
      · rw [ht]
        simp [itemsAt, hrev, Segment.label]

end Token

/-- The word opens a call with this name and these arguments. -/
structure Word.Opens (w : Word) (name : String) (arguments : List Nat) : Prop where
  name : w.name = name
  paren : ∃ p, w.paren = some p
  operand : (w.operand = none ∧ arguments = []) ∨
    ∃ t, w.operand = some t ∧ t.isClosed = true ∧ t.items.map (·.name) = arguments.map decimal

theorem Token.scan_opening (i : Nat) {name : String} (hn : IsWord name.toList)
    (arguments : List Nat) (rest : List Char) :
    ∃ j w, scanFrom i .between []
        (name.toList ++ Term.argumentsChars arguments ++ '(' :: rest) =
        .word w :: scanFrom j .between [] rest ∧ w.Opens name arguments := by
  unfold Term.argumentsChars
  split
  · rename_i he
    rw [List.isEmpty_iff] at he
    refine ⟨i + name.toList.length + 1, { wordOf i name.toList.reverse with
      paren := some (i + name.toList.length) }, ?_, ?_, ⟨_, rfl⟩, .inl ⟨rfl, he⟩⟩
    · rw [List.append_nil, scan_word i hn, scan_word_paren]
    · simp [wordOf]
  · have hw : ∀ v ∈ arguments.map (fun a => (decimal a).toList), IsWord v := by
      intro v hv
      obtain ⟨a, _, rfl⟩ := List.mem_map.mp hv
      exact isWord_decimal a
    obtain ⟨j, t, hs, hc, ht⟩ := scan_operand (i + name.toList.length + 1) hw
      (wordOf i name.toList.reverse) (i + name.toList.length) [] ('(' :: rest)
    refine ⟨j + 1, { wordOf i name.toList.reverse with operand := some t, paren := some j }, ?_,
      ?_, ⟨_, rfl⟩, .inr ⟨t, rfl, hc, ?_⟩⟩
    · simp only [List.append_assoc, List.cons_append, List.nil_append]
      rw [scan_word i hn]
      have hangle : ∀ cs, scanFrom (i + name.toList.length) (.word i name.toList.reverse) []
          ('<' :: cs) = scanFrom (i + name.toList.length + 1)
            (.operand (wordOf i name.toList.reverse) (i + name.toList.length) [] []) [] cs :=
        fun _ => rfl
      rw [hangle, hs, scan_applied_paren]
    · simp [wordOf]
    · rw [ht]
      simp

end Wordcode
