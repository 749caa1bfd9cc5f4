import Wordcode.Proofs.Settling
import Wordcode.Proofs.Spans

namespace Wordcode

theorem Scanner.inItem_iff {c : Char} :
    inItem c = true ↔ isBlank c = false ∧ c ≠ '>' ∧ Token.endsOperand c = false := by
  simp [inItem, and_assoc]

namespace Token

theorem scan_angle {ds : List Char} (hd : ∀ c ∈ ds, (c != '>') = true) (i start : Nat)
    (rest : List Char) :
    scanFrom i (.angle start) [] (ds ++ rest) =
      scanFrom (i + ds.length) (.angle start) [] rest := by
  induction ds generalizing i with
  | nil => rfl
  | cons c ds ih =>
    have hc : (c == '>') = false := by simpa using hd c (by simp)
    have hs : (Mode.angle start).step i [] c = (.angle start, []) := by
      simp [Mode.step, hc]
    rw [List.cons_append, scanFrom, hs]
    dsimp only
    rw [ih fun c hc => hd c (by simp [hc]), List.length_cons, Nat.add_assoc, Nat.add_comm 1]

variable (w : Word) (start i : Nat) (items : List Label)

theorem scan_operand_blanks {bs : List Char} (hb : ∀ c ∈ bs, isBlank c = true)
    (rest : List Char) :
    scanFrom i (.operand w start [] items) [] (bs ++ rest) =
      scanFrom (i + bs.length) (.operand w start [] items) [] rest := by
  induction bs generalizing i with
  | nil => rfl
  | cons c bs ih =>
    have hs : (Mode.operand w start [] items).step i [] c = (.operand w start [] items, []) := by
      simp [Mode.step, hb c (by simp), itemsAt]
    rw [List.cons_append, scanFrom, hs]
    dsimp only
    rw [ih _ fun c hc => hb c (by simp [hc]), List.length_cons, Nat.add_assoc, Nat.add_comm 1]

theorem scan_operand_item_end {item rest : List Char}
    (h : ∀ c, rest.head? = some c → Scanner.inItem c = false) :
    scanFrom i (.operand w start item items) [] rest =
      scanFrom i (.operand w start [] (itemsAt i item items)) [] rest := by
  have hitems : itemsAt i [] (itemsAt i item items) = itemsAt i item items := rfl
  have hword : ∀ isClosed, withOperand w start i isClosed [] (itemsAt i item items) =
      withOperand w start i isClosed item items := fun _ => rfl
  cases rest with
  | nil => rfl
  | cons c rest =>
    have hs : (Mode.operand w start item items).step i [] c =
        (Mode.operand w start [] (itemsAt i item items)).step i [] c := by
      simp only [Mode.step, hitems, hword]
      by_cases hb : isBlank c = true
      · rw [if_pos hb, if_pos hb]
      by_cases ha : (c == '>') = true
      · rw [if_neg hb, if_neg hb, if_pos ha, if_pos ha]
      have he : endsOperand c = true := by
        have hc := h c rfl
        rw [beq_iff_eq] at ha
        simpa [Scanner.inItem, hb, ha] using hc
      rw [if_neg hb, if_neg hb, if_neg ha, if_neg ha, if_pos he, if_pos he]
    rw [scanFrom, scanFrom, hs]

theorem scan_operand_cut {rest : List Char}
    (h : ∀ c, rest.head? = some c → endsOperand c = true) :
    scanFrom i (.operand w start [] items) [] rest =
      scanFrom i (.applied { w with operand := some ⟨start, i, false, items.reverse⟩ }) []
        rest := by
  cases rest with
  | nil => rfl
  | cons c rest =>
    have hc := h c rfl
    simp only [endsOperand, Bool.or_eq_true, beq_iff_eq] at hc
    rcases hc with (rfl | rfl) | rfl
    all_goals rfl

theorem scan_word_applied (name : List Char) {rest : List Char}
    (h : ∀ c, rest.head? = some c → isWordChar c = false ∧ c ≠ '<') :
    scanFrom i (.word start name) [] rest = scanFrom i (.applied (wordOf start name)) [] rest := by
  cases rest with
  | nil => rfl
  | cons c rest =>
    obtain ⟨hw, ha⟩ := h c rfl
    have hs : (Mode.word start name).step i [] c =
        (Mode.applied (wordOf start name)).step i [] c := by
      simp [Mode.step, hw, ha]
    rw [scanFrom, scanFrom, hs]

theorem scan_applied_end {rest : List Char} (h : rest.head? ≠ some '(') :
    scanFrom i (.applied w) [] rest = .word w :: scanFrom i .between [] rest := by
  cases rest with
  | nil => rfl
  | cons c rest =>
    have hc : c ≠ '(' := fun hc => h (congrArg some hc)
    have hs : (Mode.applied w).step i [] c =
        ((first i [] c).1, (first i [] c).2 ++ [.word w]) := by
      rw [← first_done]
      simp [Mode.step, hc]
    rw [scanFrom, scanFrom, hs]
    dsimp only
    rw [scanFrom_done, scanFrom_done (i + 1) _ (Mode.between.step i [] c).2]
    simp [Mode.step]

end Token

namespace OperandText

variable {t : OperandText} {l : Label}

def withItem (t : OperandText) (l : Label) : OperandText :=
  { t with items := l :: t.items }

/-- What is read with the items of an operand text, behind arguments that are given from the last to
the first. -/
def result (t : OperandText) (args : List Argument) (isGood : Bool) (r : Reading) :
    Nat × Scanner.Operand × Reading :=
  (t.stop, ⟨args.reverse ++ t.arguments, isGood && t.isGood⟩, r.reportAll t.problems)

variable (args : List Argument) (isGood : Bool) (r : Reading)

theorem result_cut (start i : Nat) :
    result ⟨start, i, false, []⟩ args isGood r =
      (i, ⟨args.reverse, false⟩, r.report (unclosed ⟨start, i, false, []⟩)) := by
  simp [result, arguments, OperandText.isGood, problems, results, Reading.report,
    Reading.reportAll]

theorem result_close (start i : Nat) :
    result ⟨start, i, true, []⟩ args isGood r = (i, ⟨args.reverse, isGood⟩, r) := by
  simp [result, arguments, OperandText.isGood, problems, results, Reading.reportAll]

theorem results_withItem : (t.withItem l).results = readArgument l :: t.results :=
  rfl

theorem result_withItem_ok {a : Argument} (h : readArgument l = .ok a) :
    (t.withItem l).result args isGood r = t.result (a :: args) isGood r := by
  have harguments : (t.withItem l).arguments = a :: t.arguments := by
    rw [arguments, results_withItem, h]
    rfl
  have hproblems : (t.withItem l).problems = t.problems := by
    rw [problems, results_withItem, h]
    rfl
  rw [result, result, OperandText.isGood, harguments, hproblems]
  simp [withItem, OperandText.isGood]

theorem result_withItem_error {p : Problem} (h : readArgument l = .error p) :
    (t.withItem l).result args isGood r = t.result args false (r.report p) := by
  have harguments : (t.withItem l).arguments = t.arguments := by
    rw [arguments, results_withItem, h]
    rfl
  have hproblems : (t.withItem l).problems = p :: t.problems := by
    rw [problems, results_withItem, h]
    rfl
  rw [result, result, OperandText.isGood, harguments, hproblems]
  simp [withItem, Reading.report, Reading.reportAll]

/-- The items of the operand text stand from the index `i` on, where `cs` stand, and `rest` is what
follows them. -/
structure Covers (t : OperandText) (i : Nat) (cs rest : List Char) : Prop where
  split : ∃ skipped, cs = skipped ++ rest ∧ t.stop = i + skipped.length
  scan : ∀ w items, Token.scanFrom i (.operand w t.start [] items) [] cs =
    Token.scanFrom t.stop
      (.applied { w with operand := some { t with items := items.reverse ++ t.items } }) [] rest

namespace Covers

variable {i : Nat} {bs cs ds rest : List Char}

theorem cut (start : Nat) (h : ∀ c, rest.head? = some c → Token.endsOperand c = true) :
    Covers ⟨start, i, false, []⟩ i rest rest where
  split := ⟨[], rfl, rfl⟩
  scan w items := by
    rw [Token.scan_operand_cut w start i items h, List.append_nil]

theorem close (start : Nat) : Covers ⟨start, i + 1, true, []⟩ i ('>' :: rest) rest where
  split := ⟨['>'], rfl, rfl⟩
  scan w items := by
    rw [List.append_nil]
    rfl

theorem blanks (hb : ∀ c ∈ bs, isBlank c = true) (h : t.Covers (i + bs.length) cs rest) :
    t.Covers i (bs ++ cs) rest where
  split := by
    obtain ⟨skipped, rfl, hstop⟩ := h.split
    refine ⟨bs ++ skipped, by rw [List.append_assoc], ?_⟩
    rw [hstop, List.length_append, Nat.add_assoc]
  scan w items := by
    rw [Token.scan_operand_blanks w t.start i items hb, h.scan]

theorem item (hne : ds ≠ []) (hd : ∀ c ∈ ds, Scanner.inItem c = true)
    (hcs : ∀ c, cs.head? = some c → Scanner.inItem c = false)
    (h : t.Covers (i + ds.length) cs rest) :
    (t.withItem ⟨String.ofList ds, ⟨i, i + ds.length - 1⟩⟩).Covers i (ds ++ cs) rest where
  split := by
    obtain ⟨skipped, rfl, hstop⟩ := h.split
    refine ⟨ds ++ skipped, by rw [List.append_assoc], ?_⟩
    rw [List.length_append, ← Nat.add_assoc]
    exact hstop
  scan w items := by
    have hitems : Token.itemsAt (i + ds.length) ds.reverse items =
        ⟨String.ofList ds, ⟨i, i + ds.length - 1⟩⟩ :: items := by
      simp [Token.itemsAt, hne, Segment.label]
    rw [Token.scan_operand_append i fun c hc => Scanner.inItem_iff.mp (hd c hc), List.append_nil,
      Token.scan_operand_item_end w _ _ items hcs, hitems]
    refine (h.scan w _).trans ?_
    simp [withItem]

end Covers

end OperandText

namespace Scanner

open Token

variable {s : Scanner} {i : Nat} {c : Char} {cs : List Char}

namespace Ahead

theorem exists_skipGroup (h : s.Ahead i cs) {depth : Nat} (hd : 0 < depth) :
    ∃ skipped rest, cs = skipped ++ rest ∧ s.skipGroup i depth = pure (i + skipped.length) ∧
      scanFrom i (.group depth) [] cs = scanFrom (i + skipped.length) .between [] rest := by
  induction cs generalizing i depth with
  | nil =>
    refine ⟨[], [], rfl, ?_, rfl⟩
    rw [skipGroup, if_neg h.not_lt, ← h.limit]
  | cons c cs ih =>
    have hnext : ∀ depth, 0 < depth → ∃ skipped rest, c :: cs = skipped ++ rest ∧
        s.skipGroup (i + 1) depth = pure (i + skipped.length) ∧
        scanFrom (i + 1) (.group depth) [] cs =
          scanFrom (i + skipped.length) .between [] rest := by
      intro depth hd
      obtain ⟨skipped, rest, rfl, hskip, hscan⟩ := ih h.tail hd
      refine ⟨c :: skipped, rest, rfl, ?_, ?_⟩
      · rw [hskip, List.length_cons, Nat.add_assoc, Nat.add_comm 1]
      · rw [hscan, List.length_cons, Nat.add_assoc, Nat.add_comm 1]
    rw [skipGroup, if_pos h.lt, h.get, pure_bind, scanFrom]
    simp only [Mode.step]
    by_cases hopen : (c == '(') = true
    · rw [if_pos hopen, if_pos hopen]
      exact hnext _ (Nat.succ_pos _)
    rw [if_neg hopen, if_neg hopen]
    by_cases hclose : (c == ')') = true
    · rw [if_pos hclose, if_pos hclose, Checked.sub_eq_pure hd, pure_bind]
      by_cases hlast : depth ≤ 1
      · rw [if_pos (by omega), if_pos hlast]
        exact ⟨[c], cs, rfl, rfl, rfl⟩
      · rw [if_neg (by omega), if_neg hlast]
        exact hnext _ (by omega)
    · rw [if_neg hclose, if_neg hclose]
      exact hnext _ hd

theorem exists_operandFrom (h : s.Ahead i cs) (start : Nat) (args : List Argument) (isGood : Bool)
    (r : Reading) :
    ∃ (t : OperandText) (rest : List Char), t.start = start ∧ t.Covers i cs rest ∧
      s.operandFrom start i args isGood r = pure (t.result args isGood r) := by
  induction hn : cs.length using Nat.strong_induction_on generalizing i cs args isGood r with
  | _ n ih =>
  obtain ⟨bs, cs, rfl, hbs, hcs⟩ := exists_run isBlank cs
  have hahead := h.append
  rw [operandFrom, h.skip_eq hbs hcs, pure_bind]
  dsimp only
  cases cs with
  | nil =>
    refine ⟨_, [], rfl, .blanks hbs (.cut start (by simp)), ?_⟩
    rw [if_neg hahead.not_lt, OperandText.result_cut]
  | cons c cs =>
    rw [if_pos hahead.lt, hahead.get, pure_bind]
    by_cases hends : endsOperand c = true
    · refine ⟨_, c :: cs, rfl, .blanks hbs (.cut start (by simp [hends])), ?_⟩
      rw [if_pos hends, OperandText.result_cut]
    rw [if_neg hends]
    by_cases hclose : (c == '>') = true
    · obtain rfl := beq_iff_eq.mp hclose
      refine ⟨_, cs, rfl, .blanks hbs (.close start), ?_⟩
      rw [if_pos hclose, OperandText.result_close]
    have hc : inItem c = true := by
      rw [beq_iff_eq] at hclose
      exact inItem_iff.mpr ⟨hcs c rfl, hclose, by simpa using hends⟩
    obtain ⟨ds, rest, hsplit, hne, hds, hrest⟩ := exists_run_cons inItem hc cs
    have hpos := List.length_pos_iff.mpr hne
    rw [hsplit] at hahead hn ⊢
    have hlt : rest.length < n := by
      rw [← hn, List.length_append, List.length_append]
      omega
    rw [if_neg hclose, hahead.run_eq hne hds hrest, pure_bind]
    generalize hl : (⟨String.ofList ds, ⟨i + bs.length, i + bs.length + ds.length - 1⟩⟩ : Label) = l
    have hitem : ∀ {t : OperandText} {rest' : List Char},
        t.Covers (i + bs.length + ds.length) rest rest' →
        (t.withItem l).Covers i (bs ++ (ds ++ rest)) rest' :=
      fun ht => .blanks hbs (hl ▸ .item hne hds hrest ht)
    cases ha : readArgument l with
    | ok a =>
      obtain ⟨t, rest', hstart, ht, hread⟩ := ih _ hlt hahead.append (a :: args) isGood r rfl
      refine ⟨t.withItem l, rest', hstart, hitem ht, ?_⟩
      rw [OperandText.result_withItem_ok _ _ _ ha]
      simpa only [ha] using hread
    | error p =>
      obtain ⟨t, rest', hstart, ht, hread⟩ := ih _ hlt hahead.append args false (r.report p) rfl
      refine ⟨t.withItem l, rest', hstart, hitem ht, ?_⟩
      rw [OperandText.result_withItem_error _ _ _ ha]
      simpa only [ha] using hread

end Ahead

theorem reportMismatch_eq (entry : Option Opcode) {t : OperandText} (ht : 0 < t.stop)
    (r : Reading) :
    reportMismatch entry ⟨t.arguments, t.isGood⟩ t.start t.stop r =
      pure (r.reportAll (entry.bind t.mismatch?).toList) := by
  cases entry with
  | none => rfl
  | some op =>
    rw [reportMismatch, Option.bind_some, OperandText.mismatch?]
    dsimp only
    by_cases hbad : (t.isGood && t.arguments.length != op.arity) = true
    · rw [if_pos hbad, if_pos hbad, Checked.sub_eq_pure ht]
      rfl
    · rw [if_neg hbad, if_neg hbad]
      rfl

end Scanner

namespace Word

/-- The word of the label with the operand text that directly follows it, where `cs` stand behind
the label and `rest` behind the operand text. -/
structure Applies (w : Word) (l : Label) (cs rest : List Char) : Prop where
  name : w.name = l.name
  position : w.position = l.position
  paren : w.paren = none
  operand : w.operand.isSome = (cs.head? == some '<')
  split : ∃ skipped, cs = skipped ++ rest ∧ w.stop = l.position.last + 1 + skipped.length
  scan : ∀ start name, Segment.label start name = l →
    (∀ c, cs.head? = some c → Token.isWordChar c = false) →
    Token.scanFrom (l.position.last + 1) (.word start name) [] cs =
      Token.scanFrom w.stop (.applied w) [] rest

/-- The word of the label with all that directly follows it, where `cs` stand behind the label and
`rest` from the index `j` on. -/
structure Extends (w : Word) (l : Label) (cs rest : List Char) (j : Nat) : Prop where
  name : w.name = l.name
  position : w.position = l.position
  isCall : w.isCall = (cs.head? == some '(' || cs.head? == some '<')
  split : ∃ skipped, cs = skipped ++ rest ∧ j = l.position.last + 1 + skipped.length
  scan : ∀ start name, Segment.label start name = l →
    (∀ c, cs.head? = some c → Token.isWordChar c = false) →
    Token.scanFrom (l.position.last + 1) (.word start name) [] cs =
      .word w :: Token.scanFrom j .between [] rest

variable {l : Label} {cs rest : List Char}

theorem applies_self (l : Label) (h : cs.head? ≠ some '<') :
    Applies { name := l.name, position := l.position } l cs cs where
  name := rfl
  position := rfl
  paren := rfl
  operand := by simpa using h
  split := ⟨[], rfl, rfl⟩
  scan := by
    rintro start name rfl hcs
    refine Token.scan_word_applied start _ name fun c hc => ⟨hcs c hc, ?_⟩
    rintro rfl
    exact h hc

theorem applies_operand (l : Label) {t : OperandText} (hstart : t.start = l.position.last + 1)
    (h : t.Covers (l.position.last + 2) cs rest) :
    Applies { name := l.name, position := l.position, operand := some t } l ('<' :: cs) rest where
  name := rfl
  position := rfl
  paren := rfl
  operand := rfl
  split := by
    obtain ⟨skipped, rfl, hstop⟩ := h.split
    refine ⟨'<' :: skipped, rfl, ?_⟩
    rw [List.length_cons, ← Nat.add_assoc, Nat.add_right_comm]
    exact hstop
  scan := by
    rintro start name rfl -
    refine Eq.trans ?_ (h.scan (Token.wordOf start name) [])
    rw [hstart]
    rfl

theorem Applies.eq_of_operand {w : Word} (h : w.Applies l cs rest) (hw : w.operand = none) :
    rest = cs := by
  obtain ⟨skipped, rfl, hstop⟩ := h.split
  rw [stop, hw, h.position] at hstop
  dsimp only at hstop
  obtain rfl : skipped = [] := List.eq_nil_of_length_eq_zero (by omega)
  rfl

theorem Applies.extends_end {w : Word} (h : w.Applies l cs rest) (hrest : rest.head? ≠ some '(') :
    w.Extends l cs rest w.stop where
  name := h.name
  position := h.position
  isCall := by
    rw [isCall, h.operand, h.paren]
    cases hw : w.operand with
    | none =>
      rw [h.eq_of_operand hw] at hrest
      simp [hrest]
    | some t =>
      have hangle := h.operand
      rw [hw] at hangle
      simp [← hangle]
  split := h.split
  scan start name hl hcs := by
    rw [h.scan start name hl hcs, Token.scan_applied_end w _ hrest]

theorem Applies.extends_paren {w : Word} (h : w.Applies l cs ('(' :: rest)) :
    Extends { w with paren := some w.stop } l cs rest (w.stop + 1) where
  name := h.name
  position := h.position
  isCall := by
    rw [isCall, Option.isSome_some, Bool.or_true]
    cases hw : w.operand with
    | none => simp [← h.eq_of_operand hw]
    | some t => simp [← h.operand, hw]
  split := by
    obtain ⟨skipped, rfl, hstop⟩ := h.split
    exact ⟨skipped ++ ['('], by simp, by simp [hstop, Nat.add_assoc]⟩
  scan start name hl hcs := by
    rw [h.scan start name hl hcs, Token.scan_applied_paren]

theorem Extends.eq_of_isCall {w : Word} {j : Nat} (h : w.Extends l cs rest j)
    (hw : w.isCall = false) : w = { name := l.name, position := l.position } := by
  rw [Word.isCall, Bool.or_eq_false_iff, Option.isSome_eq_false_iff, Option.isNone_iff_eq_none,
    Option.isSome_eq_false_iff, Option.isNone_iff_eq_none] at hw
  rw [← h.name, ← h.position, ← hw.1, ← hw.2]

end Word

namespace Scanner

namespace Ahead

open Token

variable {s : Scanner} {i : Nat} {c : Char} {cs : List Char}

theorem exists_operandAt {l : Label} (h : s.Ahead (l.position.last + 1) cs)
    (entry : Option Opcode) (r : Reading) :
    ∃ (w : Word) (rest : List Char), w.Applies l cs rest ∧
      s.operandAt entry (l.position.last + 1) r =
        pure (w.stop, w.operand.map fun t => ⟨t.arguments, t.isGood⟩,
          r.reportAll (w.operandProblems entry)) := by
  rw [operandAt, h.stands_eq, pure_bind]
  by_cases hangle : cs.head? = some '<'
  · obtain ⟨cs, rfl⟩ := List.head?_eq_some_iff.mp hangle
    obtain ⟨t, rest, hstart, ht, hread⟩ := h.tail.exists_operandFrom (l.position.last + 1) [] true r
    refine ⟨_, rest, Word.applies_operand l hstart ht, ?_⟩
    obtain ⟨skipped, -, hstop⟩ := ht.split
    rw [if_pos (by simp), operand, hread, pure_bind, ← hstart]
    dsimp only [OperandText.result]
    rw [List.reverse_nil, List.nil_append, Bool.true_and, reportMismatch_eq entry (by omega),
      pure_bind]
    simp [Word.stop, Word.operandProblems, Reading.reportAll]
  · refine ⟨_, cs, Word.applies_self l hangle, ?_⟩
    rw [if_neg (by simpa using hangle)]
    rfl

theorem exists_openCall {l : Label} (h : s.Ahead (l.position.last + 1) cs)
    (found : Option (UInt16 × Opcode)) (r : Reading) :
    ∃ (w : Word) (rest : List Char) (j : Nat), w.Extends l cs rest j ∧
      s.openCall l found r = pure (j, r.callWord w found) := by
  obtain ⟨w, rest, hw, hread⟩ := h.exists_operandAt (found.map (·.2)) r
  obtain ⟨skipped, rfl, hstop⟩ := hw.split
  have hahead : s.Ahead w.stop rest := hstop ▸ h.append
  have hcall : w.call (found.map (·.1)) =
      { name := l.name
        opcode := found.map (·.1)
        position := ⟨l.position.first, w.stop - 1⟩
        arguments := ((w.operand.map fun t => (⟨t.arguments, t.isGood⟩ : Operand)).map
          (·.arguments)).getD [] } := by
    rw [Word.call, hw.name, hw.position, Word.arguments]
    cases w.operand <;> rfl
  rw [openCall, hread, pure_bind]
  dsimp only
  rw [Checked.sub_eq_pure (by omega), pure_bind, ← hcall, hahead.stands_eq, pure_bind,
    Option.isNone_map, ← Word.lacksArguments]
  by_cases hparen : rest.head? = some '('
  · obtain ⟨rest, rfl⟩ := List.head?_eq_some_iff.mp hparen
    refine ⟨_, rest, _, hw.extends_paren, ?_⟩
    have herror : (w.lacksArguments (found.map (·.2)) || (found.map (·.2)).all fun op =>
        (w.operand.map fun t => (⟨t.arguments, t.isGood⟩ : Operand)).any fun o =>
          !o.isGood || o.arguments.length != op.arity) = w.operandError (found.map (·.2)) := by
      cases found with
      | none => simp [Word.operandError]
      | some found =>
        cases ho : w.operand <;> simp [Word.lacksArguments, Word.operandError, ho]
    rw [if_pos (by simp), herror]
    rfl
  · refine ⟨w, rest, _, hw.extends_end hparen, ?_⟩
    rw [if_neg (by simpa using hparen), Reading.callWord, hw.paren]

variable {entries : List Opcode} {ctx : Context}

theorem exists_opcodeWord {l : Label} (htable : Table.ofEntries entries = .ok ctx.table)
    (h : s.Ahead (l.position.last + 1) cs) (r : Reading) :
    ∃ (w : Word) (rest : List Char) (j : Nat), w.Extends l cs rest j ∧
      s.opcodeWord ctx l (cs.head? == some '(' || cs.head? == some '<') r =
        pure (j, r.opcodeWord ctx w) := by
  rw [Scanner.opcodeWord, Table.find_eq htable, pure_bind]
  cases hl : ctx.table.lookup l.name with
  | some found =>
    obtain ⟨w, rest, j, hw, hread⟩ := h.exists_openCall (some found) r
    refine ⟨w, rest, j, hw, ?_⟩
    rw [Reading.opcodeWord, hw.name, hl]
    exact hread
  | none =>
    dsimp only
    by_cases hcall : (cs.head? == some '(' || cs.head? == some '<') = true
    · obtain ⟨w, rest, j, hw, hread⟩ := h.exists_openCall none
        (r.report ⟨.undefinedOpcode, "undefined opcode: " ++ l.name, l.position⟩)
      refine ⟨w, rest, j, hw, ?_⟩
      rw [if_pos hcall, hread, Reading.opcodeWord, hw.name, hl, hw.position]
      dsimp only
      rw [if_pos (hw.isCall.trans hcall)]
    · rw [if_neg hcall]
      rw [Bool.or_eq_true, not_or, beq_iff_eq, beq_iff_eq] at hcall
      refine ⟨_, cs, _, (Word.applies_self l hcall.2).extends_end hcall.1, ?_⟩
      rw [Reading.opcodeWord, hl]
      rfl

theorem exists_word {ds : List Char} (htable : Table.ofEntries entries = .ok ctx.table)
    (h : s.Ahead i (ds ++ cs)) (hne : ds ≠ []) (hds : ∀ c ∈ ds, isWordChar c = true)
    (hcs : ∀ c, cs.head? = some c → isWordChar c = false) (r : Reading) :
    ∃ (w : Word) (rest : List Char) (j : Nat),
      w.Extends ⟨String.ofList ds, ⟨i, i + ds.length - 1⟩⟩ cs rest j ∧
        s.word ctx i r = pure (j, Reading.word ctx r w) := by
  have hpos := List.length_pos_iff.mpr hne
  rw [Scanner.word, h.run_eq hne hds hcs, pure_bind]
  generalize hl : (⟨String.ofList ds, ⟨i, i + ds.length - 1⟩⟩ : Label) = l
  have hlast : l.position.last + 1 = i + ds.length := by
    rw [← hl]
    exact Nat.sub_add_cancel (by omega)
  have hahead : s.Ahead (l.position.last + 1) cs := hlast ▸ h.append
  dsimp only
  rw [← hlast, hahead.stands_eq, pure_bind, hahead.stands_eq, pure_bind]
  obtain ⟨w, rest, j, hw, hread⟩ := hahead.exists_opcodeWord htable r
  by_cases hcall : (cs.head? == some '(' || cs.head? == some '<') = true
  · refine ⟨w, rest, j, hw, ?_⟩
    rw [if_pos hcall, Reading.word, if_pos (hw.isCall.trans hcall), hread]
  · have hplain : w.isCall = false := by
      rw [hw.isCall]
      simpa using hcall
    obtain rfl := hw.eq_of_isCall hplain
    rw [if_neg hcall]
    cases hp : r.plainWord? ctx { name := l.name, position := l.position } with
    | some r' =>
      rw [Bool.or_eq_true, not_or, beq_iff_eq, beq_iff_eq] at hcall
      refine ⟨_, cs, _, (Word.applies_self l hcall.2).extends_end hcall.1, ?_⟩
      rw [Reading.word, if_neg (by simp [hplain]), hp]
      rfl
    | none =>
      refine ⟨_, rest, j, hw, ?_⟩
      rw [Reading.word, if_neg (by simp [hplain]), hp]
      exact hread

end Ahead

end Scanner

end Wordcode
