import Wordcode.Proofs.Scanning

namespace Wordcode

/-- The characters `cs` stand in the text from index `i` on. -/
def Stands (text : List Char) (i : Nat) (cs : List Char) : Prop :=
  ∃ before after, before.length = i ∧ text = before ++ cs ++ after

namespace Stands

variable {text cs ds : List Char} {i : Nat} {c : Char}

theorem append_iff : Stands text i (cs ++ ds) ↔
    Stands text i cs ∧ Stands text (i + cs.length) ds := by
  constructor
  · rintro ⟨before, after, rfl, rfl⟩
    exact ⟨⟨before, ds ++ after, rfl, by simp⟩, ⟨before ++ cs, after, by simp, by simp⟩⟩
  · rintro ⟨⟨before, after, rfl, rfl⟩, ⟨before', after', hlen, heq⟩⟩
    obtain ⟨hbefore, hafter⟩ := List.append_inj (heq.trans (List.append_assoc ..)) (by simp [hlen])
    exact ⟨before, after', rfl, by rw [← hbefore] at heq; simpa using heq⟩

theorem singleton_iff : Stands text i [c] ↔ text[i]? = some c := by
  constructor
  · rintro ⟨before, after, rfl, rfl⟩
    simp
  · intro h
    obtain ⟨hi, rfl⟩ := List.getElem?_eq_some_iff.mp h
    exact ⟨text.take i, text.drop (i + 1), by simp; omega, by simp⟩

theorem cons_iff : Stands text i (c :: cs) ↔ text[i]? = some c ∧ Stands text (i + 1) cs := by
  rw [← List.singleton_append, append_iff, singleton_iff, List.length_singleton]

theorem le (h : Stands text i cs) : i + cs.length ≤ text.length := by
  obtain ⟨before, after, rfl, rfl⟩ := h
  simp

theorem self (text : List Char) : Stands text 0 text :=
  ⟨[], [], rfl, by simp⟩

theorem nil (h : i ≤ text.length) : Stands text i [] :=
  ⟨text.take i, text.drop i, by simpa using h, by simp⟩

theorem getElem? (h : Stands text i cs) {m : Nat} (hc : cs[m]? = some c) :
    text[i + m]? = some c := by
  obtain ⟨before, after, rfl, rfl⟩ := h
  obtain ⟨hm, rfl⟩ := List.getElem?_eq_some_iff.mp hc
  rw [List.append_assoc, List.getElem?_append_right (by omega), Nat.add_sub_cancel_left,
    List.getElem?_append_left hm, hc]

end Stands

/-- There are only blanks between two indices, the first of which is included. -/
def Gap (text : List Char) (lo hi : Nat) : Prop :=
  ∀ i, lo ≤ i → i < hi → ∀ c, text[i]? = some c → isBlank c = true

theorem gap_self (text : List Char) (i : Nat) : Gap text i i := by
  intro j hlo hhi
  omega

theorem Gap.trans {text : List Char} {lo mid hi : Nat} (h : Gap text lo mid)
    (h' : Gap text mid hi) : Gap text lo hi := by
  intro i hlo hhi
  by_cases hi : i < mid
  · exact h i hlo hi
  · exact h' i (by omega) hhi

theorem gap_blank {text : List Char} {i : Nat} {c : Char} (hc : text[i]? = some c)
    (hb : isBlank c = true) : Gap text i (i + 1) := by
  intro j hlo hhi d hd
  obtain rfl : j = i := by omega
  rw [hc, Option.some.injEq] at hd
  exact hd ▸ hb

structure Position.Within (lo hi : Nat) (p : Position) : Prop where
  ge : lo ≤ p.first
  le : p.first ≤ p.last
  lt : p.last < hi

theorem Position.Within.mono {lo lo' hi hi' : Nat} {p : Position} (h : p.Within lo hi)
    (hlo : lo' ≤ lo) (hhi : hi ≤ hi') : p.Within lo' hi' :=
  ⟨hlo.trans h.ge, h.le, h.lt.trans_le hhi⟩

theorem Position.within_point {lo hi i : Nat} (hlo : lo ≤ i) (hhi : i < hi) :
    (point i).Within lo hi :=
  ⟨hlo, Nat.le_refl i, hhi⟩

structure Spelled (text : List Char) (word : String) (p : Position) : Prop where
  stands : Stands text p.first word.toList
  solid : ∀ c ∈ word.toList, isBlank c = false
  le : p.first ≤ p.last
  length : p.first + word.toList.length = p.last + 1

theorem Spelled.within {text : List Char} {word : String} {p : Position} (h : Spelled text word p) :
    p.Within 0 text.length := by
  have hle := h.stands.le
  have hlen := h.length
  exact ⟨Nat.zero_le _, h.le, by omega⟩

/-- The characters before an index that no blank parts, given from the last to the first. -/
structure Run (text : List Char) (i : Nat) (name : List Char) : Prop where
  le : name.length ≤ i
  stands : Stands text (i - name.length) name.reverse
  solid : ∀ c ∈ name, isBlank c = false

namespace Run

variable {text name : List Char} {i : Nat} {c : Char}

theorem nil (hi : i ≤ text.length) : Run text i [] :=
  ⟨Nat.zero_le _, .nil hi, by simp⟩

theorem cons (h : Run text i name) (hc : text[i]? = some c) (hb : isBlank c = false) :
    Run text (i + 1) (c :: name) := by
  have hle := h.le
  have hstart : i + 1 - (c :: name).length = i - name.length := by simp
  have hend : i - name.length + name.reverse.length = i := by simp; omega
  refine ⟨by simp [hle], ?_, by simpa [hb] using h.solid⟩
  rw [hstart, List.reverse_cons, Stands.append_iff, hend, Stands.singleton_iff]
  exact ⟨h.stands, hc⟩

theorem single (hc : text[i]? = some c) (hb : isBlank c = false) : Run text (i + 1) [c] :=
  (nil (List.getElem?_eq_some_iff.mp hc).1.le).cons hc hb

theorem spelled (h : Run text i name) (hne : name ≠ []) :
    Spelled text (String.ofList name.reverse) ⟨i - name.length, i - 1⟩ := by
  have hle := h.le
  have hpos := List.length_pos_of_ne_nil hne
  refine ⟨by simpa using h.stands, by simpa using h.solid, ?_, ?_⟩
  · dsimp only
    omega
  · simp only [String.toList_ofList, List.length_reverse]
    omega

end Run

namespace Segment

theorem label_eq {i : Nat} {name : List Char} (hle : name.length ≤ i) :
    label (i - name.length) name = ⟨String.ofList name.reverse, ⟨i - name.length, i - 1⟩⟩ := by
  rw [label, Nat.sub_add_cancel hle]

variable {text : List Char}

def LabelIn (text : List Char) (lo hi : Nat) (l : Label) : Prop :=
  Spelled text l.name l.position ∧ l.position.Within lo hi

theorem LabelIn.mono {lo lo' hi hi' : Nat} {l : Label} (h : LabelIn text lo hi l) (hlo : lo' ≤ lo)
    (hhi : hi ≤ hi') : LabelIn text lo' hi' l :=
  ⟨h.1, h.2.mono hlo hhi⟩

theorem labelIn_itemsAt {lo i : Nat} {name : List Char} {labels : List Label}
    (hrun : Run text i name) (hlo : lo + name.length ≤ i)
    (h : ∀ l ∈ labels, LabelIn text lo i l) :
    ∀ l ∈ Token.itemsAt i name labels, LabelIn text lo i l := by
  unfold Token.itemsAt
  split
  · exact h
  · rename_i hne
    have hname : name ≠ [] := by simpa using hne
    have hpos := List.length_pos_of_ne_nil hname
    rw [List.forall_mem_cons, label_eq hrun.le]
    refine ⟨⟨hrun.spelled hname, ?_, ?_, ?_⟩, h⟩
    all_goals
      dsimp only
      omega

theorem labelsFrom_eq (i : Nat) (name : List Char) (done : List Label) :
    (if name.isEmpty then done else label (i - name.length) name :: done) =
      Token.itemsAt i name done := rfl

theorem labelIn_labelsFrom {lo i : Nat} {name cs : List Char} {done : List Label}
    (hcs : Stands text i cs) (hrun : Run text i name) (hlo : lo + name.length ≤ i)
    (hdone : ∀ l ∈ done, LabelIn text lo i l) :
    ∀ l ∈ labelsFrom i name done cs, LabelIn text lo (i + cs.length) l := by
  induction cs generalizing i name done with
  | nil =>
    intro l hl
    rw [labelsFrom, labelsFrom_eq, List.mem_reverse] at hl
    exact labelIn_itemsAt hrun hlo hdone l hl
  | cons c cs ih =>
    rw [Stands.cons_iff] at hcs
    have hlen : i + (c :: cs).length = i + 1 + cs.length := by simp; omega
    have hnext : i + 1 ≤ text.length := (List.getElem?_eq_some_iff.mp hcs.1).1
    rw [hlen, labelsFrom]
    split
    · refine ih hcs.2 (.nil hnext) (by simp; omega) ?_
      exact fun l hl => (labelIn_itemsAt hrun hlo hdone l hl).mono (Nat.le_refl _) (Nat.le_succ _)
    · rename_i hb
      refine ih hcs.2 (hrun.cons hcs.1 (by simpa using hb)) (by simp; omega) ?_
      exact fun l hl => (hdone l hl).mono (Nat.le_refl _) (Nat.le_succ _)

theorem labelIn_labels {left : Segment} (h : Stands text left.start left.chars) :
    ∀ l ∈ left.labels, LabelIn text left.start left.stop l :=
  labelIn_labelsFrom h (.nil (by have := h.le; omega)) (by simp) (by simp)

end Segment

/-- A word with what follows it, as it stands in the text. -/
structure Word.Stands (text : List Char) (w : Word) : Prop where
  name : Spelled text w.name w.position
  operand : ∀ t ∈ w.operand, t.start = w.position.last + 1 ∧ t.start < t.stop ∧
    ∀ l ∈ t.items, Segment.LabelIn text (t.start + 1) t.stop l
  paren : ∀ i ∈ w.paren, i = w.stop ∧ text[i]? = some '('

namespace Token

def start : Token → Nat
  | .word w => w.position.first
  | .operand p => p.first
  | .close i | .group i | .closeAngle i | .comma i | .illegal _ i => i

def stop : Token → Nat
  | .word w =>
    match w.paren with
    | some i => i + 1
    | none => w.stop
  | .operand p => p.last + 1
  | .close i | .group i | .closeAngle i | .comma i | .illegal _ i => i + 1

def Stands (text : List Char) : Token → Prop
  | .word w => w.Stands text
  | .operand p => p.first ≤ p.last
  | .close i => text[i]? = some ')'
  | _ => True

/-- Where the text goes on behind a token. What is skipped with a parenthesis is part of no
token. -/
def EndsAt (m : Nat) : Token → Prop
  | .group i => i < m
  | t => m = t.stop

/-- The tokens stand one behind the other between two indices, with only blanks between them. -/
inductive Chain (text : List Char) : Nat → Nat → List Token → Prop
  | nil {lo hi : Nat} : lo ≤ hi → Gap text lo hi → Chain text lo hi []
  | cons {lo mid hi : Nat} {t : Token} {ts : List Token} : lo ≤ t.start → Gap text lo t.start →
      t.Stands text → t.EndsAt mid → Chain text mid hi ts → Chain text lo hi (t :: ts)

variable {text : List Char} {lo mid hi i : Nat} {c : Char}

theorem Chain.refl (text : List Char) (i : Nat) : Chain text i i [] :=
  .nil (Nat.le_refl i) (gap_self text i)

theorem Chain.single {t : Token} (hlo : lo ≤ t.start) (hgap : Gap text lo t.start)
    (ht : t.Stands text) (he : t.EndsAt mid) : Chain text lo mid [t] :=
  .cons hlo hgap ht he (.refl text mid)

theorem Chain.extend {ts : List Token} (h : Chain text mid hi ts) (hlo : lo ≤ mid)
    (hgap : Gap text lo mid) : Chain text lo hi ts := by
  cases h with
  | nil hle hg => exact .nil (hlo.trans hle) (hgap.trans hg)
  | cons hle hg ht he h => exact .cons (hlo.trans hle) (hgap.trans hg) ht he h

theorem Chain.append {ts ts' : List Token} (h : Chain text lo mid ts)
    (h' : Chain text mid hi ts') : Chain text lo hi (ts ++ ts') := by
  induction h with
  | nil hle hg => exact h'.extend hle hg
  | cons hle hg ht he _ ih => exact .cons hle hg ht he (ih h')

/-- What the characters from `lo` on that are part of no token yet are part of. -/
def Mode.At (text : List Char) (lo i : Nat) : Mode → Prop
  | .between => lo ≤ i ∧ Gap text lo i
  | .word start name => lo ≤ start ∧ Gap text lo start ∧ Run text i name ∧ name ≠ [] ∧
      start + name.length = i
  | .operand w start item items => lo ≤ w.position.first ∧ Gap text lo w.position.first ∧
      Spelled text w.name w.position ∧ w.operand = none ∧ w.paren = none ∧
      start = w.position.last + 1 ∧ Run text i item ∧ start + 1 + item.length ≤ i ∧
      ∀ l ∈ items, Segment.LabelIn text (start + 1) i l
  | .applied w => lo ≤ w.position.first ∧ Gap text lo w.position.first ∧ w.Stands text ∧
      w.paren = none ∧ w.stop = i
  | .angle start => lo ≤ start ∧ Gap text lo start ∧ start < i
  | .group _ => False

theorem at_between (text : List Char) (i : Nat) : Mode.between.At text i i :=
  ⟨Nat.le_refl i, gap_self text i⟩

/-- The mode and the tokens behind a character: the tokens stand in the text up to some index,
from which the mode goes on. Behind a parenthesis that is skipped this may be any later index. -/
def Goes (text : List Char) (lo i : Nat) (r : Mode × List Token) : Prop :=
  (∃ mid, Chain text lo mid r.2.reverse ∧ r.1.At text mid (i + 1)) ∨
    ∃ depth, r.1 = .group depth ∧ ∀ mid, i < mid → Chain text lo mid r.2.reverse

theorem goes_first (hlo : lo ≤ i) (hgap : Gap text lo i) (hc : text[i]? = some c) :
    Goes text lo i (first i [] c) := by
  have hpoint : ∀ t : Token, t.start = i → t.Stands text → t.EndsAt (i + 1) →
      Goes text lo i (.between, [t]) := by
    intro t hstart ht he
    rw [← hstart] at hlo hgap
    exact .inl ⟨i + 1, .single hlo hgap ht he, Nat.le_refl _, gap_self _ _⟩
  unfold first
  split
  · rename_i hb
    exact .inl ⟨lo, .refl text lo, by omega, hgap.trans (gap_blank hc hb)⟩
  rename_i hb
  split
  · exact .inr ⟨1, rfl, fun mid hmid => .single hlo hgap trivial hmid⟩
  split
  · rename_i hclose
    exact hpoint (.close i) rfl (hc.trans (by simpa using hclose)) rfl
  split
  · exact .inl ⟨lo, .refl text lo, hlo, hgap, Nat.lt_succ_self i⟩
  split
  · exact hpoint (.closeAngle i) rfl trivial rfl
  split
  · exact hpoint (.comma i) rfl trivial rfl
  split
  · exact .inl ⟨lo, .refl text lo, hlo, hgap, .single hc (by simpa using hb), by simp, rfl⟩
  · exact hpoint (.illegal c i) rfl trivial rfl

theorem goes_first_behind {t : Token} (ht : Chain text lo i [t]) (hc : text[i]? = some c) :
    Goes text lo i (first i [t] c) := by
  rw [first_done]
  rcases goes_first (Nat.le_refl i) (gap_self text i) hc with ⟨mid, hchain, hmode⟩ | ⟨d, hd, h⟩
  · exact .inl ⟨mid, by simpa using ht.append hchain, hmode⟩
  · exact .inr ⟨d, hd, fun mid hmid => by simpa using ht.append (h mid hmid)⟩

theorem wordOf_spelled {start : Nat} {name : List Char} (hrun : Run text i name) (hne : name ≠ [])
    (hstart : start + name.length = i) :
    Spelled text (wordOf start name).name (wordOf start name).position := by
  obtain rfl : start = i - name.length := by omega
  have hle := hrun.le
  have hw : wordOf (i - name.length) name =
      { name := String.ofList name.reverse, position := ⟨i - name.length, i - 1⟩ } := by
    rw [wordOf, Nat.sub_add_cancel hle]
  rw [hw]
  exact hrun.spelled hne

theorem wordOf_stands {start : Nat} {name : List Char} (hrun : Run text i name) (hne : name ≠ [])
    (hstart : start + name.length = i) : (wordOf start name).Stands text :=
  ⟨wordOf_spelled hrun hne hstart, by simp [wordOf], by simp [wordOf]⟩

theorem stop_wordOf {start : Nat} {name : List Char} (hne : name ≠ [])
    (hstart : start + name.length = i) : (wordOf start name).stop = i := by
  have hpos := List.length_pos_of_ne_nil hne
  simp only [Word.stop, wordOf]
  omega

theorem stands_paren {w : Word} (h : w.Stands text) (hstop : w.stop = i)
    (hc : text[i]? = some '(') : Word.Stands text { w with paren := some i } := by
  refine ⟨h.name, h.operand, ?_⟩
  rintro _ ⟨⟩
  exact ⟨hstop.symm, hc⟩

theorem goes_paren {w : Word} (h : w.Stands text) (hlo : lo ≤ w.position.first)
    (hgap : Gap text lo w.position.first) (hstop : w.stop = i) (hc : text[i]? = some '(') :
    Goes text lo i (.between, [.word { w with paren := some i }]) :=
  .inl ⟨i + 1, .single hlo hgap (stands_paren h hstop hc) rfl, Nat.le_refl _, gap_self _ _⟩

theorem chain_word {w : Word} (h : w.Stands text) (hlo : lo ≤ w.position.first)
    (hgap : Gap text lo w.position.first) (hparen : w.paren = none) (hstop : w.stop = i) :
    Chain text lo i [.word w] := by
  refine .single hlo hgap h ?_
  simp [EndsAt, stop, hparen, hstop]

theorem withOperand_stands {w : Word} {start : Nat} {item : List Char} {items : List Label}
    (hname : Spelled text w.name w.position) (hparen : w.paren = none)
    (hstart : start = w.position.last + 1) (hrun : Run text i item)
    (hitem : start + 1 + item.length ≤ i)
    (hitems : ∀ l ∈ items, Segment.LabelIn text (start + 1) i l) (isClosed : Bool) :
    (withOperand w start i isClosed item items).Stands text := by
  have hall := Segment.labelIn_itemsAt hrun hitem hitems
  refine ⟨hname, ?_, by simp [withOperand, hparen]⟩
  rintro _ ⟨⟩
  refine ⟨hstart, ?_, ?_⟩
  · dsimp only
    split <;> omega
  · intro l hl
    refine (hall l (List.mem_reverse.mp hl)).mono (Nat.le_refl _) ?_
    dsimp only
    split <;> omega

theorem goes_step {mode : Mode} (h : mode.At text lo i) (hc : text[i]? = some c) :
    Goes text lo i (mode.step i [] c) := by
  cases mode with
  | between => exact goes_first h.1 h.2 hc
  | word start name =>
    obtain ⟨hlo, hgap, hrun, hne, hstart⟩ := h
    have hword := wordOf_stands hrun hne hstart
    have hstop := stop_wordOf hne hstart
    rw [Mode.step]
    split
    · rename_i hw
      refine .inl ⟨lo, .refl text lo, hlo, hgap, hrun.cons hc (isBlank_of_isWordChar hw), by simp,
        ?_⟩
      simp
      omega
    split
    · rename_i hopen
      obtain rfl : c = '(' := by simpa using hopen
      exact goes_paren hword hlo hgap hstop hc
    split
    · have hi : i + 1 ≤ text.length := (List.getElem?_eq_some_iff.mp hc).1
      refine .inl ⟨lo, .refl text lo, hlo, hgap, hword.name, rfl, rfl, ?_, .nil hi, ?_, by simp⟩
      · exact hstop.symm
      · simp
    · exact goes_first_behind (chain_word hword hlo hgap rfl hstop) hc
  | operand w start item items =>
    obtain ⟨hlo, hgap, hname, hoperand, hparen, hstart, hrun, hitem, hitems⟩ := h
    have hword := withOperand_stands hname hparen hstart hrun hitem hitems
    have hall := Segment.labelIn_itemsAt hrun hitem hitems
    rw [Mode.step]
    split
    · have hi : i + 1 ≤ text.length := (List.getElem?_eq_some_iff.mp hc).1
      refine .inl ⟨lo, .refl text lo, hlo, hgap, hname, hoperand, hparen, hstart, .nil hi, ?_, ?_⟩
      · simp
        omega
      · exact fun l hl => (hall l hl).mono (Nat.le_refl _) (Nat.le_succ _)
    rename_i hb
    split
    · exact .inl ⟨lo, .refl text lo, hlo, hgap, hword true, hparen, rfl⟩
    split
    · rename_i hopen
      obtain rfl : c = '(' := by simpa using hopen
      exact goes_paren (hword false) hlo hgap rfl hc
    split
    · exact goes_first_behind (chain_word (hword false) hlo hgap hparen rfl) hc
    · refine .inl ⟨lo, .refl text lo, hlo, hgap, hname, hoperand, hparen, hstart,
        hrun.cons hc (by simpa using hb), ?_, ?_⟩
      · simp
        omega
      · exact fun l hl => (hitems l hl).mono (Nat.le_refl _) (Nat.le_succ _)
  | applied w =>
    obtain ⟨hlo, hgap, hword, hparen, hstop⟩ := h
    rw [Mode.step]
    split
    · rename_i hopen
      obtain rfl : c = '(' := by simpa using hopen
      exact goes_paren hword hlo hgap hstop hc
    · exact goes_first_behind (chain_word hword hlo hgap hparen hstop) hc
  | group depth => exact h.elim
  | angle start =>
    obtain ⟨hlo, hgap, hlt⟩ := h
    rw [Mode.step]
    split
    · exact .inl ⟨i + 1, .single hlo hgap hlt.le rfl, Nat.le_refl _, gap_self _ _⟩
    · exact .inl ⟨lo, .refl text lo, hlo, hgap, by omega⟩

theorem chain_finish {mode : Mode} (h : mode.At text lo i) :
    Chain text lo i (mode.finish i []).reverse := by
  cases mode with
  | between => exact .nil h.1 h.2
  | word start name =>
    obtain ⟨hlo, hgap, hrun, hne, hstart⟩ := h
    exact chain_word (wordOf_stands hrun hne hstart) hlo hgap rfl (stop_wordOf hne hstart)
  | operand w start item items =>
    obtain ⟨hlo, hgap, hname, hoperand, hparen, hstart, hrun, hitem, hitems⟩ := h
    exact chain_word (withOperand_stands hname hparen hstart hrun hitem hitems false) hlo hgap
      hparen rfl
  | applied w =>
    obtain ⟨hlo, hgap, hword, hparen, hstop⟩ := h
    exact chain_word hword hlo hgap hparen hstop
  | group depth => exact h.elim
  | angle start =>
    obtain ⟨hlo, hgap, hlt⟩ := h
    refine .single hlo hgap ?_ ?_
    · simp only [Stands]
      omega
    · simp only [EndsAt, stop]
      omega

theorem scanFrom_group (depth i : Nat) (cs : List Char) :
    ∃ skipped rest, cs = skipped ++ rest ∧
      scanFrom i (.group depth) [] cs = scanFrom (i + skipped.length) .between [] rest := by
  induction cs generalizing depth i with
  | nil => exact ⟨[], [], rfl, rfl⟩
  | cons c cs ih =>
    have hnext : ∀ depth, ∃ skipped rest, c :: cs = skipped ++ rest ∧
        scanFrom (i + 1) (.group depth) [] cs =
          scanFrom (i + skipped.length) .between [] rest := by
      intro depth
      obtain ⟨skipped, rest, rfl, h⟩ := ih depth (i + 1)
      refine ⟨c :: skipped, rest, rfl, ?_⟩
      rw [h, List.length_cons, Nat.add_assoc, Nat.add_comm 1]
    rw [scanFrom]
    simp only [Mode.step]
    split
    · exact hnext _
    split
    · split
      · exact ⟨[c], cs, rfl, rfl⟩
      · exact hnext _
    · exact hnext _

theorem chain_scanFrom {mode : Mode} {cs : List Char} (h : mode.At text lo i)
    (hcs : Wordcode.Stands text i cs) :
    Chain text lo (i + cs.length) (scanFrom i mode [] cs) := by
  -- what is skipped with a parenthesis makes the text shorter by more than one character
  induction hn : cs.length using Nat.strong_induction_on generalizing lo i mode cs with
  | _ n ih =>
  cases cs with
  | nil =>
    subst hn
    exact chain_finish h
  | cons c cs =>
    rw [Stands.cons_iff] at hcs
    rw [List.length_cons] at hn
    rw [scanFrom]
    dsimp only
    rw [scanFrom_done]
    rcases goes_step h hcs.1 with ⟨mid, hchain, hmode⟩ | ⟨depth, hd, hchain⟩
    · have hrest := ih cs.length (by omega) hmode hcs.2 rfl
      rw [show i + n = i + 1 + cs.length by omega]
      exact hchain.append hrest
    · obtain ⟨skipped, rest, hskip, hscan⟩ := scanFrom_group depth (i + 1) cs
      rw [hd, hscan]
      rw [hskip, Stands.append_iff] at hcs
      have hlen : cs.length = skipped.length + rest.length := by rw [hskip, List.length_append]
      have hrest := ih rest.length (by omega) (at_between text _) hcs.2.2 rfl
      rw [show i + n = i + 1 + skipped.length + rest.length by omega]
      exact (hchain _ (by omega)).append hrest

theorem chain_scan {right : Segment} (h : Wordcode.Stands text right.start right.chars) :
    Chain text right.start right.stop (scan right) :=
  chain_scanFrom (at_between text _) h

end Token

end Wordcode
