import Wordcode.Proofs.Reflow

namespace Wordcode

/-- A way to read from left to right in which blanks part words and do nothing else. Characters
that are not `ok` need not be read alike. -/
structure Flow {σ β : Type} (run : σ → List Char → List β) (step : σ → Char → σ × List β)
    (ok : Char → Prop) : Prop where
  cons : ∀ s c cs, run s (c :: cs) = (step s c).2 ++ run (step s c).1 cs
  blank : ∀ s b, isBlank b = true → step s b = step s ' '
  settled : ∀ s, step (step s ' ').1 ' ' = ((step s ' ').1, [])
  finish : ∀ s, run s [' '] = run s []
  opens : ∀ s c, ok c → Reflow.opens c = true → step (step s c).1 ' ' = ((step s c).1, [])
  closes : ∀ s c cs, ok c → Reflow.closes c = true → run s (' ' :: c :: cs) = run s (c :: cs)

namespace Flow

variable {σ β : Type} {run : σ → List Char → List β} {step : σ → Char → σ × List β}
  {ok : Char → Prop}

theorem run_settled (f : Flow run step ok) {s : σ} (hs : step s ' ' = (s, [])) {bs : List Char}
    (hb : Blanks bs) (cs : List Char) : run s (bs ++ cs) = run s cs := by
  induction bs with
  | nil => rfl
  | cons b bs ih =>
    rw [List.cons_append, f.cons, f.blank s b (hb b (by simp)), hs]
    exact ih fun c hc => hb c (by simp [hc])

theorem run_blanks (f : Flow run step ok) (s : σ) {bs : List Char} (hb : Blanks bs)
    (hne : bs ≠ []) (cs : List Char) : run s (bs ++ cs) = run s (' ' :: cs) := by
  obtain ⟨b, bs, rfl⟩ := List.exists_cons_of_ne_nil hne
  rw [List.cons_append, f.cons, f.cons s ' ', f.blank s b (hb b (by simp)),
    f.run_settled (f.settled s) fun c hc => hb c (by simp [hc])]

theorem run_finish (f : Flow run step ok) (s : σ) {bs : List Char} (hb : Blanks bs) :
    run s bs = run s [] := by
  by_cases hne : bs = []
  · rw [hne]
  · rw [← f.finish s, ← f.run_blanks s hb hne, List.append_nil]

theorem run_closes (f : Flow run step ok) (s : σ) {bs : List Char} (hb : Blanks bs) {c : Char}
    (hc : ok c) (hcloses : Reflow.closes c = true) (cs : List Char) :
    run s (bs ++ c :: cs) = run s (c :: cs) := by
  by_cases hne : bs = []
  · rw [hne, List.nil_append]
  · rw [f.run_blanks s hb hne, f.closes s c cs hc hcloses]

/-- Texts with the same characters in other lines and columns are read alike. -/
theorem run_reflow (f : Flow run step ok) {free : Bool} {cs ds : List Char}
    (h : Reflow free cs ds) (hok : ∀ c ∈ cs, isBlank c = false → ok c) {s : σ}
    (hs : free = true → step s ' ' = (s, [])) : run s cs = run s ds := by
  induction h generalizing s with
  | blanks hb hb' => rw [f.run_finish s hb, f.run_finish s hb']
  | @solid free bs bs' cs ds c hb hb' hc hfree _ ih =>
    have hcok : ok c := hok c (by simp) hc
    have hrest : ∀ s, run s (c :: cs) = run s (c :: ds) := by
      intro s
      rw [f.cons, f.cons]
      congr 1
      exact ih (fun d hd => hok d (by simp [hd])) fun ho => f.opens s c hcok ho
    -- blanks do nothing behind what is settled and in front of a closing character, and else
    -- there are some in both texts or in none
    rcases hfree with hfree | hcloses | hiff
    · rw [f.run_settled (hs hfree) hb, f.run_settled (hs hfree) hb', hrest]
    · rw [f.run_closes s hb hcok hcloses, f.run_closes s hb' hcok hcloses, hrest]
    · by_cases hne : bs = []
      · rw [hne, hiff.mp hne]
        exact hrest s
      · have hne' : bs' ≠ [] := fun he => hne (hiff.mpr he)
        rw [f.run_blanks s hb hne, f.run_blanks s hb' hne', f.cons s ' ', f.cons s ' ',
          hrest]

end Flow

namespace Segment

def openLabel (name : List Char) : List Label :=
  if name.isEmpty then [] else [⟨String.ofList name.reverse, default⟩]

def labelStep (name : List Char) (c : Char) : List Char × List Label :=
  if isBlank c then ([], openLabel name) else (c :: name, [])

def bareLabels : List Char → List Char → List Label
  | name, [] => openLabel name
  | name, c :: cs => (labelStep name c).2 ++ bareLabels (labelStep name c).1 cs

theorem map_bare_labelsFrom (i : Nat) (name : List Char) (done : List Label) (cs : List Char) :
    (labelsFrom i name done cs).map Label.bare =
      (done.map Label.bare).reverse ++ bareLabels name cs := by
  have hopen : ∀ (i : Nat) (name : List Char) (done : List Label),
      (if name.isEmpty then done else label (i - name.length) name :: done).map Label.bare =
        (openLabel name).reverse ++ done.map Label.bare := by
    intro i name done
    unfold openLabel
    split <;> rfl
  have hone : ∀ name, (openLabel name).reverse.reverse = openLabel name :=
    fun _ => List.reverse_reverse _
  induction cs generalizing i name done with
  | nil => rw [labelsFrom, List.map_reverse, hopen, bareLabels, List.reverse_append, hone]
  | cons c cs ih =>
    rw [labelsFrom, bareLabels, labelStep]
    split
    · rw [ih, hopen, List.reverse_append, hone, List.append_assoc]
    · exact ih (i + 1) (c :: name) done

theorem flow_labels :
    Flow bareLabels labelStep fun c => Reflow.opens c = false ∧ Reflow.closes c = false where
  cons _ _ _ := rfl
  blank name b hb := by
    rw [labelStep, if_pos hb]
    rfl
  settled name := rfl
  finish name := List.append_nil _
  opens name c hc ho := by
    rw [hc.1] at ho
    cases ho
  closes name c cs hc ho := by
    rw [hc.2] at ho
    cases ho

theorem exists_bareLabels (name cs : List Char) {c : Char}
    (h : c ∈ name ∨ (c ∈ cs ∧ isBlank c = false)) :
    ∃ l ∈ bareLabels name cs, c ∈ l.name.toList := by
  have hopen : ∀ {name : List Char}, c ∈ name → ∃ l ∈ openLabel name, c ∈ l.name.toList := by
    intro name hc
    have hne : name ≠ [] := List.ne_nil_of_mem hc
    exact ⟨⟨String.ofList name.reverse, default⟩, by simp [openLabel, hne], by simpa using hc⟩
  induction cs generalizing name with
  | nil => exact hopen (by simpa using h)
  | cons d cs ih =>
    rw [bareLabels, labelStep]
    by_cases hd : isBlank d = true
    · rw [if_pos hd]
      rcases h with hname | ⟨hcs, hc⟩
      · obtain ⟨l, hl, hcl⟩ := hopen hname
        exact ⟨l, List.mem_append_left _ hl, hcl⟩
      · have hne : c ≠ d := (ne_of_isBlank hd hc).symm
        obtain ⟨l, hl, hcl⟩ := ih [] (.inr ⟨by simpa [hne] using hcs, hc⟩)
        exact ⟨l, List.mem_append_right _ hl, hcl⟩
    · rw [if_neg hd]
      apply ih
      rcases h with hname | ⟨hcs, hc⟩
      · exact .inl (List.mem_cons_of_mem d hname)
      · rcases List.mem_cons.mp hcs with rfl | hcs
        · exact .inl (List.mem_cons_self ..)
        · exact .inr ⟨hcs, hc⟩

theorem labels_congr {left left' : Segment} (h : left.Alike left')
    (hp : labelProblems left.labels = []) :
    left.labels.map Label.bare = left'.labels.map Label.bare := by
  have hbare : ∀ s : Segment, s.labels.map Label.bare = bareLabels [] s.chars :=
    fun s => map_bare_labelsFrom s.start [] [] s.chars
  rw [hbare, hbare]
  refine flow_labels.run_reflow h ?_ fun _ => rfl
  intro c hc hsolid
  obtain ⟨l, hl, hcl⟩ := exists_bareLabels [] left.chars (.inr ⟨hc, hsolid⟩)
  rw [← hbare] at hl
  obtain ⟨m, hm, rfl⟩ := List.mem_map.mp hl
  have hword : Token.isWordChar c = true :=
    (isWord_of_named (Statement.labelProblems_eq_nil hp m hm)).2 c hcl
  have hne : ∀ d ∈ ['(', ')', '<', '>', ',', ':', ';', '*', '/'], c ≠ d :=
    fun d hd => Token.isWordChar_ne hword hd
  constructor
  · simp [Reflow.opens, hne]
  · simp [Reflow.closes, hne]

end Segment

def isMark (c : Char) : Bool :=
  c ∈ [',', ':', ';']

namespace Token

def bareStep (m : Mode) (c : Char) : Mode × List Token :=
  ((m.step 0 [] c).1, ((m.step 0 [] c).2.map bare).reverse)

/-- The tokens of a text without their places. -/
def bareScan (m : Mode) (cs : List Char) : List Token :=
  (scanFrom 0 m [] cs).map bare

theorem map_bare_scan (right : Segment) : (scan right).map bare = bareScan .between right.chars :=
  scanFrom_congr rfl _ _ _

theorem bareScan_cons (m : Mode) (c : Char) (cs : List Char) :
    bareScan m (c :: cs) = (bareStep m c).2 ++ bareScan (bareStep m c).1 cs := by
  rw [bareScan, scanFrom]
  dsimp only
  rw [scanFrom_done, List.map_append, List.map_reverse, scanFrom_congr rfl 1 0]
  rfl

theorem bareStep_blank (m : Mode) {b : Char} (hb : isBlank b = true) :
    bareStep m b = bareStep m ' ' := by
  have hw : isWordChar b = false := by
    by_contra hne
    rw [Bool.not_eq_false] at hne
    rw [isBlank_of_isWordChar hne] at hb
    cases hb
  have hparen : b ≠ '(' := ne_of_isBlank hb rfl
  have hclose : b ≠ ')' := ne_of_isBlank hb rfl
  have hangle : b ≠ '<' := ne_of_isBlank hb rfl
  have hcloseAngle : b ≠ '>' := ne_of_isBlank hb rfl
  have hblank : isBlank ' ' = true ∧ isWordChar ' ' = false := ⟨rfl, rfl⟩
  have hstep : m.step 0 [] b = m.step 0 [] ' ' := by
    cases m <;> simp [Mode.step, first, hblank, hb, hw, hparen, hclose, hangle, hcloseAngle]
  rw [bareStep, hstep]
  rfl

theorem flow_scan : Flow bareScan bareStep fun c => isMark c = false where
  cons := bareScan_cons
  blank m _ hb := bareStep_blank m hb
  settled m := by cases m <;> rfl
  finish m := by cases m <;> rfl
  opens m c hc ho := by
    have hmem : c = '(' ∨ c = ')' ∨ c = '<' := by
      simp [isMark, Reflow.opens] at hc ho
      tauto
    rcases hmem with rfl | rfl | rfl
    · cases m <;> rfl
    · cases m with
      | group depth =>
        have hmode : (bareStep (.group depth) ')').1 =
            if depth ≤ 1 then .between else .group (depth - 1) := rfl
        rw [hmode]
        split <;> rfl
      | _ => rfl
    · cases m <;> rfl
  closes m c cs hc ho := by
    have hmem : c = ')' ∨ c = '>' := by
      simp [isMark, Reflow.closes] at hc ho
      tauto
    rw [bareScan_cons, bareScan_cons, bareScan_cons m c, ← List.append_assoc]
    rcases hmem with rfl | rfl
    · cases m <;> rfl
    · cases m <;> rfl

end Token

/-- No mark stands between `<` and `>`. -/
def Word.IsClean (w : Word) : Prop :=
  ∀ t ∈ w.operand, ∀ l ∈ t.items, ∀ c ∈ l.name.toList, isMark c = false

namespace Token

/-- Tokens of a right side without problems. -/
def IsClean : Token → Prop
  | .word w => w.IsClean
  | .close _ => True
  | _ => False

/-- Whether clean tokens can come of what is read so far. -/
def Mode.IsClean : Mode → Prop
  | .operand _ _ item items =>
    (∀ c ∈ item, isMark c = false) ∧ ∀ l ∈ items, ∀ c ∈ l.name.toList, isMark c = false
  | .applied w => w.IsClean
  | .angle _ => False
  | _ => True

theorem clean_itemsAt {i : Nat} {item : List Char} {items : List Label} :
    (∀ l ∈ itemsAt i item items, ∀ c ∈ l.name.toList, isMark c = false) ↔
      (∀ c ∈ item, isMark c = false) ∧ ∀ l ∈ items, ∀ c ∈ l.name.toList, isMark c = false := by
  unfold itemsAt
  split
  · rename_i he
    rw [List.isEmpty_iff] at he
    simp [he]
  · simp [Segment.label]

theorem clean_withOperand {w : Word} {start i : Nat} {closed : Bool} {item : List Char}
    {items : List Label} :
    (withOperand w start i closed item items).IsClean ↔
      (∀ c ∈ item, isMark c = false) ∧ ∀ l ∈ items, ∀ c ∈ l.name.toList, isMark c = false := by
  rw [← clean_itemsAt (i := i)]
  simp [Word.IsClean, withOperand]

theorem isMark_of_isWordChar {c : Char} (h : isWordChar c = true) : isMark c = false := by
  have hne : ∀ d ∈ ['(', ')', '<', '>', ',', ':', ';', '*', '/'], c ≠ d :=
    fun d hd => isWordChar_ne h hd
  simp [isMark, hne]

theorem isMark_of_isBlank {c : Char} (h : isBlank c = true) : isMark c = false := by
  have hne : ∀ d, isBlank d = false → c ≠ d := fun _ => ne_of_isBlank h
  simp [isMark, hne ',' rfl, hne ':' rfl, hne ';' rfl]

/-- If the tokens of a character are clean, then no group opens, and what is clean behind the
character was so before it. -/
def Admits (before : Prop) (c : Char) (r : Mode × List Token) : Prop :=
  (∀ t ∈ r.2, t.IsClean) → (∀ depth, r.1 ≠ .group depth) ∧
    (r.1.IsClean → before ∧ isMark c = false)

theorem first_admits (i : Nat) (done : List Token) (c : Char) :
    Admits (∀ t ∈ done, t.IsClean) c (first i done c) := by
  unfold first
  split
  · rename_i hb
    exact fun h => ⟨by simp, fun _ => ⟨h, isMark_of_isBlank hb⟩⟩
  split
  · exact fun h => (h (.group i) (by simp)).elim
  split
  · rename_i hc
    rw [beq_iff_eq.mp hc]
    exact fun h => ⟨by simp, fun _ => ⟨(List.forall_mem_cons.mp h).2, rfl⟩⟩
  split
  · exact fun h => ⟨by simp, False.elim⟩
  split
  · exact fun h => (h (.closeAngle i) (by simp)).elim
  split
  · exact fun h => (h (.comma i) (by simp)).elim
  split
  · rename_i hw
    exact fun h => ⟨by simp, fun _ => ⟨h, isMark_of_isWordChar hw⟩⟩
  · exact fun h => (h (.illegal c i) (by simp)).elim

theorem first_word_admits (i : Nat) (c : Char) {w : Word} {before : Prop}
    (hw : w.IsClean → before) : Admits before c (first i [.word w] c) := by
  intro ht
  obtain ⟨hgroup, hclean⟩ := first_admits i [.word w] c ht
  refine ⟨hgroup, fun hm => ?_⟩
  obtain ⟨hbefore, hc⟩ := hclean hm
  exact ⟨hw (hbefore (.word w) (by simp)), hc⟩

theorem step_admits {m : Mode} (hm : ∀ depth, m ≠ .group depth) (i : Nat) (c : Char) :
    Admits m.IsClean c (m.step i [] c) := by
  have hparen : ∀ w : Word, (w.IsClean → m.IsClean) → Admits m.IsClean '('
      (.between, [.word { w with paren := some i }]) := by
    intro w hw h
    exact ⟨by simp, fun _ => ⟨hw (h (.word { w with paren := some i }) (by simp)), rfl⟩⟩
  cases m with
  | between =>
    intro h
    obtain ⟨hgroup, hclean⟩ := first_admits i [] c h
    exact ⟨hgroup, fun hm => ⟨trivial, (hclean hm).2⟩⟩
  | word start name =>
    rw [Mode.step]
    split
    · rename_i hw
      exact fun _ => ⟨by simp, fun _ => ⟨trivial, isMark_of_isWordChar hw⟩⟩
    split
    · rename_i hc
      rw [beq_iff_eq.mp hc]
      exact hparen _ fun _ => trivial
    split
    · rename_i hc
      rw [beq_iff_eq.mp hc]
      exact fun _ => ⟨by simp, fun _ => ⟨trivial, rfl⟩⟩
    · exact first_word_admits i c fun _ => trivial
  | operand w start item items =>
    rw [Mode.step]
    split
    · rename_i hb
      refine fun _ => ⟨by simp, fun hclean => ⟨?_, isMark_of_isBlank hb⟩⟩
      exact clean_itemsAt.mp hclean.2
    split
    · rename_i hc
      rw [beq_iff_eq.mp hc]
      exact fun _ => ⟨by simp, fun hclean => ⟨clean_withOperand.mp hclean, rfl⟩⟩
    split
    · rename_i hc
      rw [beq_iff_eq.mp hc]
      exact hparen _ clean_withOperand.mp
    split
    · exact first_word_admits i c clean_withOperand.mp
    · refine fun _ => ⟨by simp, ?_⟩
      rintro ⟨hitem, hitems⟩
      rw [List.forall_mem_cons] at hitem
      exact ⟨⟨hitem.2, hitems⟩, hitem.1⟩
  | applied w =>
    rw [Mode.step]
    split
    · rename_i hc
      rw [beq_iff_eq.mp hc]
      exact hparen w id
    · exact first_word_admits i c id
  | group depth => exact (hm depth rfl).elim
  | angle start =>
    rw [Mode.step]
    split
    · exact fun h => (h (.operand ⟨start, i⟩) (by simp)).elim
    · exact fun _ => ⟨by simp, False.elim⟩

theorem isMark_of_clean {m : Mode} (hm : ∀ depth, m ≠ .group depth) {i : Nat} {cs : List Char}
    (h : ∀ t ∈ scanFrom i m [] cs, t.IsClean) : m.IsClean ∧ ∀ c ∈ cs, isMark c = false := by
  induction cs generalizing m i with
  | nil =>
    rw [scanFrom] at h
    refine ⟨?_, by simp⟩
    cases m with
    | between => trivial
    | word start name => trivial
    | operand w start item items =>
      have hw := h (.word (withOperand w start i false item items)) (by simp [Mode.finish])
      exact clean_withOperand.mp hw
    | applied w => exact h (.word w) (by simp [Mode.finish])
    | group depth => trivial
    | angle start => exact h (.operand ⟨start, i - 1⟩) (by simp [Mode.finish])
  | cons c cs ih =>
    rw [scanFrom] at h
    dsimp only at h
    rw [scanFrom_done, List.forall_mem_append] at h
    obtain ⟨hgroup, hclean⟩ := step_admits hm i c fun t ht => h.1 t (List.mem_reverse.mpr ht)
    obtain ⟨hmode, hcs⟩ := ih hgroup h.2
    obtain ⟨hbefore, hc⟩ := hclean hmode
    exact ⟨hbefore, List.forall_mem_cons.mpr ⟨hc, hcs⟩⟩

end Token

theorem isNumeric_of_readArgument {item : Label} {a : Argument} (h : readArgument item = .ok a) :
    Literal.isNumeric item.name = true := by
  unfold readArgument at h
  split at h
  · cases h
  · rename_i hn
    simpa using hn

theorem OperandText.isMark_of_problems {t : OperandText} (h : t.problems = []) :
    ∀ l ∈ t.items, ∀ c ∈ l.name.toList, isMark c = false := by
  intro l hl c hc
  rw [problems, List.append_eq_nil_iff, List.filterMap_eq_nil_iff] at h
  have hread := h.1 (readArgument l) (List.mem_map_of_mem hl)
  cases hr : readArgument l with
  | error p =>
    rw [hr] at hread
    cases hread
  | ok a =>
    have hn := isNumeric_of_readArgument hr
    rw [Literal.isNumeric, Option.isSome_iff_exists] at hn
    obtain ⟨literal, hliteral⟩ := hn
    exact Token.isMark_of_isWordChar (Literal.isWordChar_of_ofChars? hliteral c hc)

namespace Reading

variable {ctx : Context} {r : Reading}

theorem isClean_of_word {w : Word} (h : (word ctx r w).problems = []) : w.IsClean := by
  intro t ht
  rw [Option.mem_def] at ht
  have hcall : w.isCall = true := by simp [Word.isCall, ht]
  rw [word, if_pos hcall, opcodeWord] at h
  split at h
  · obtain ⟨paren, -, ho, -⟩ := callWord_problems_eq_nil h
    rw [Word.operandProblems, ht, List.append_eq_nil_iff] at ho
    exact t.isMark_of_problems ho.1
  · rw [if_pos hcall] at h
    have hs := callWord_problems
      (r.report ⟨.undefinedOpcode, "undefined opcode: " ++ w.name, w.position⟩) w none
    rw [h] at hs
    simp [report] at hs

theorem isClean_of_step {t : Token} (h : (step ctx r t).problems = []) : t.IsClean := by
  cases t with
  | word w => exact isClean_of_word h
  | close i => trivial
  | group i => simp [step, report] at h
  | operand p => simp [step, report] at h
  | closeAngle i => simp [step, report] at h
  | comma i => simp [step, report] at h
  | illegal c i => simp [step, report] at h

theorem isClean_of_foldl {ts : List Token} (h : (ts.foldl (step ctx) r).problems = []) :
    ∀ t ∈ ts, t.IsClean := by
  induction ts generalizing r with
  | nil => simp
  | cons t ts ih =>
    rw [List.foldl_cons] at h
    have hs := foldl_step_problems ctx (step ctx r t) ts
    rw [h, List.suffix_nil] at hs
    exact List.forall_mem_cons.mpr ⟨isClean_of_step hs, ih h⟩

theorem scan_reflow {right right' : Segment} (h : right.Alike right')
    (hp : (read ctx right).problems = []) :
    (Token.scan right).map Token.bare = (Token.scan right').map Token.bare := by
  have hfold : ((Token.scan right).foldl (step ctx) {}).problems = [] := by
    have hs := finishFrames_problems right.stop ((Token.scan right).foldl (step ctx) {}) none
      ((Token.scan right).foldl (step ctx) {}).frames
    rw [← read_eq, hp, List.suffix_nil] at hs
    exact hs
  have hmarks := (Token.isMark_of_clean (by simp) (isClean_of_foldl hfold)).2
  rw [Token.map_bare_scan, Token.map_bare_scan]
  exact Token.flow_scan.run_reflow h (fun c hc _ => hmarks c hc) fun _ => rfl

end Reading

namespace Statement

variable {table : Table} {scope : Scope}

theorem ofSides_reflow (p p' : Position) {left left' right right' : Segment}
    (hl : left.Alike left') (hr : right.Alike right')
    (hp : (ofSides table scope p left right).2 = []) :
    (ofSides table scope p left right).map bare (List.map Problem.bare) =
      (ofSides table scope p' left' right').map bare (List.map Problem.bare) := by
  have hparts := hp
  unfold ofSides at hparts
  simp only [List.append_eq_nil_iff, List.reverse_eq_nil_iff] at hparts
  obtain ⟨⟨⟨hlabels, hread⟩, -⟩, -⟩ := hparts
  exact ofSides_congr table scope p p' (Segment.labels_congr hl hlabels)
    (Reading.scan_reflow hr hread)

theorem ofSegment_reflow {s s' : Segment} (h : s.Alike s') (hp : (ofSegment table scope s).2 = []) :
    (ofSegment table scope s').2 = [] ∧
      (ofSegment table scope s).1.map bare = (ofSegment table scope s').1.map bare := by
  unfold ofSegment at hp ⊢
  dsimp only at hp ⊢
  rw [← h.isEmpty_trim]
  split
  · simp
  · rename_i hne
    rw [if_neg hne] at hp
    cases hs : s.trim.sides with
    | error problem =>
      rw [hs] at hp
      cases hp
    | ok sides =>
      obtain ⟨left, right⟩ := sides
      obtain ⟨left', right', hs', hl, hr⟩ := h.trim.sides hs
      rw [hs] at hp
      rw [hs']
      dsimp only at hp ⊢
      have hboth := ofSides_reflow _ s'.trim.position hl hr hp
      rw [Prod.map, Prod.map, Prod.mk.injEq, hp] at hboth
      refine ⟨?_, ?_⟩
      · simpa using hboth.2.symm
      · simpa using hboth.1

end Statement

namespace Source

variable {table : Table}

theorem readFrom_reflow {ss ss' : List Segment} (h : List.Forall₂ Segment.Alike ss ss')
    {scope : Scope} (hp : (readFrom table scope ss).2 = []) :
    (readFrom table scope ss').2 = [] ∧
      (readFrom table scope ss).1.map Statement.bare =
        (readFrom table scope ss').1.map Statement.bare := by
  induction h generalizing scope with
  | nil => exact ⟨rfl, rfl⟩
  | @cons s s' ss ss' hs _ ih =>
    have hone : (Statement.ofSegment table scope s).2 = [] → _ := Statement.ofSegment_reflow hs
    rcases hr : Statement.ofSegment table scope s with ⟨found, problems⟩
    rcases hr' : Statement.ofSegment table scope s' with ⟨found', problems'⟩
    rw [hr, hr'] at hone
    cases found with
    | none =>
      simp only [readFrom, hr, List.append_eq_nil_iff] at hp ⊢
      obtain ⟨rfl, hfound⟩ := hone hp.1
      cases found' with
      | some st' => cases hfound
      | none =>
        simp only [hr', List.nil_append]
        exact ih hp.2
    | some st =>
      simp only [readFrom, hr, List.append_eq_nil_iff] at hp ⊢
      obtain ⟨rfl, hfound⟩ := hone hp.1
      cases found' with
      | none => cases hfound
      | some st' =>
        rw [Option.map_some, Option.map_some, Option.some.injEq] at hfound
        have hlabels : st.labels.map Label.bare = st'.labels.map Label.bare :=
          congrArg Statement.labels hfound
        have hscope : scope.declareAll st.labels = scope.declareAll st'.labels := by
          rw [← scope.declareAll_bare, hlabels, scope.declareAll_bare]
        obtain ⟨hps, hss⟩ := ih hp.2
        rw [hscope] at hps hss
        simp only [hr', List.nil_append, List.map_cons, hfound, hscope, hss]
        exact ⟨hps, trivial⟩

theorem ofSegment_reflow {s s' : Segment} (h : s.Alike s') (hp : (ofSegment table s).2 = []) :
    (ofSegment table s').2 = [] ∧ (ofSegment table s).1.bare = (ofSegment table s').1.bare := by
  rw [ofSegment_eq] at hp ⊢
  rw [ofSegment_eq]
  obtain ⟨hps, hss⟩ := readFrom_reflow (h.splitOuter rfl rfl) hp
  refine ⟨hps, ?_⟩
  simp only [bare, Source.mk.injEq, true_and]
  exact hss

theorem ofSegments_reflow {ss ss' : List Segment} (h : List.Forall₂ Segment.Alike ss ss')
    (hp : (ss.map (ofSegment table)).flatMap (·.2) = []) :
    (ss'.map (ofSegment table)).flatMap (·.2) = [] ∧
      (ss.map (ofSegment table)).map (bare ·.1) = (ss'.map (ofSegment table)).map (bare ·.1) := by
  induction h with
  | nil => exact ⟨rfl, rfl⟩
  | cons hs _ ih =>
    rw [List.map_cons, List.flatMap_cons, List.append_eq_nil_iff] at hp
    obtain ⟨hone, hbare⟩ := ofSegment_reflow hs hp.1
    obtain ⟨hrest, hbares⟩ := ih hp.2
    simp only [List.map_cons, List.flatMap_cons, hone, hrest, hbare, hbares, List.append_nil,
      true_and]

end Source

/-- A text without problems says the same in other lines and columns. -/
theorem Document.read_reflow {table : Table} {text text' : List Char}
    (h : Reflow true text text') (hp : (read table text).problems = []) :
    (read table text').problems = [] ∧
      (read table text).sources.map Source.bare = (read table text').sources.map Source.bare := by
  simp only [read, List.append_eq_nil_iff] at hp ⊢
  obtain ⟨hcomments, hflow⟩ := h.stripComments hp.1
  obtain ⟨hproblems, hsources⟩ := Source.ofSegments_reflow hflow.sources hp.2
  refine ⟨⟨hcomments, hproblems⟩, ?_⟩
  simp only [List.map_map] at hsources ⊢
  exact hsources

end Wordcode
