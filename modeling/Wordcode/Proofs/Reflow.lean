import Wordcode.Proofs.Bare
import Wordcode.Proofs.Segmentation

namespace Wordcode

theorem ne_of_isBlank {b c : Char} (hb : isBlank b = true) (hc : isBlank c = false) : b ≠ c := by
  rintro rfl
  rw [hb] at hc
  cases hc

def Blanks (bs : List Char) : Prop :=
  ∀ b ∈ bs, isBlank b = true

theorem Blanks.append {bs bs' : List Char} (h : Blanks bs) (h' : Blanks bs') :
    Blanks (bs ++ bs') := by
  intro b hb
  rcases List.mem_append.mp hb with hb | hb
  · exact h b hb
  · exact h' b hb

theorem Blanks.ne {bs : List Char} (h : Blanks bs) {b c : Char} (hb : b ∈ bs)
    (hc : isBlank c = false) : b ≠ c :=
  ne_of_isBlank (h b hb) hc

theorem blanks_nil : Blanks [] := by
  simp [Blanks]

/-- Characters behind which blanks are of no account. -/
def Reflow.opens (c : Char) : Bool :=
  c ∈ ['(', ')', '<', ',', ':', ';']

def Reflow.closes (c : Char) : Bool :=
  c ∈ [')', '>', ',', ':', ';']

/-- Two texts with the same characters in other lines and columns: where one of them has blanks the
other one has blanks too, except next to a character that parts words anyway. The flag says whether
blanks at the start are of no account. -/
inductive Reflow : Bool → List Char → List Char → Prop
  | blanks {free : Bool} {bs bs' : List Char} : Blanks bs → Blanks bs' → Reflow free bs bs'
  | solid {free : Bool} {bs bs' cs ds : List Char} {c : Char} : Blanks bs → Blanks bs' →
      isBlank c = false → (free = true ∨ Reflow.closes c = true ∨ (bs = [] ↔ bs' = [])) →
      Reflow (Reflow.opens c) cs ds → Reflow free (bs ++ c :: cs) (bs' ++ c :: ds)

namespace Reflow

variable {free : Bool} {cs ds : List Char}

theorem symm (h : Reflow free cs ds) : Reflow free ds cs := by
  induction h with
  | blanks hb hb' => exact .blanks hb' hb
  | solid hb hb' hc hfree _ ih =>
    refine .solid hb' hb hc ?_ ih
    rw [iff_comm]
    exact hfree

theorem cons {c : Char} (hc : isBlank c = false) (h : Reflow (opens c) cs ds) :
    Reflow free (c :: cs) (c :: ds) :=
  .solid blanks_nil blanks_nil hc (.inr (.inr Iff.rfl)) h

theorem pad (h : Reflow free cs ds) {bs bs' : List Char} (hb : Blanks bs) (hb' : Blanks bs')
    (hne : bs ≠ []) (hne' : bs' ≠ []) (free' : Bool) : Reflow free' (bs ++ cs) (bs' ++ ds) := by
  cases h with
  | blanks hcs hds => exact .blanks (hb.append hcs) (hb'.append hds)
  | solid hbs hbs' hc _ h =>
    rw [← List.append_assoc, ← List.append_assoc]
    refine .solid (hb.append hbs) (hb'.append hbs') hc (.inr (.inr ?_)) h
    simp [hne, hne']

theorem refl (free : Bool) (cs : List Char) : Reflow free cs cs := by
  induction cs generalizing free with
  | nil => exact .blanks blanks_nil blanks_nil
  | cons c cs ih =>
    by_cases hc : isBlank c = true
    · have hb : Blanks [c] := by simpa [Blanks] using hc
      exact (ih true).pad hb hb (by simp) (by simp) free
    · exact .cons (by simpa using hc) (ih _)

theorem pad_right (h : Reflow true cs ds) {bs : List Char} (hb : Blanks bs) :
    Reflow true cs (bs ++ ds) := by
  cases h with
  | blanks hcs hds => exact .blanks hcs (hb.append hds)
  | solid hbs hbs' hc _ h =>
    rw [← List.append_assoc]
    exact .solid hbs (hb.append hbs') hc (.inl rfl) h

theorem of_cons {c : Char} (hc : isBlank c = false) (hn : closes c = false)
    (h : Reflow false (c :: cs) ds) : ∃ ds', ds = c :: ds' ∧ Reflow (opens c) cs ds' := by
  generalize hx : c :: cs = xs at h
  cases h with
  | blanks hb _ =>
    subst hx
    rw [hb c (by simp)] at hc
    cases hc
  | @solid _ bs bs' cs₁ ds₁ d hb _ _ hfree h =>
    cases bs with
    | cons b bs =>
      rw [List.cons_append, List.cons.injEq] at hx
      rw [hx.1, hb b (by simp)] at hc
      cases hc
    | nil =>
      rw [List.nil_append, List.cons.injEq] at hx
      obtain ⟨rfl, rfl⟩ := hx
      have hbs' : bs' = [] := by simpa [hn] using hfree
      subst hbs'
      exact ⟨ds₁, rfl, h⟩

theorem head?_eq_some_iff (h : Reflow false cs ds) {c : Char} (hc : isBlank c = false)
    (hn : closes c = false) : cs.head? = some c ↔ ds.head? = some c := by
  have hhead : ∀ {cs ds : List Char}, Reflow false cs ds → cs.head? = some c →
      ds.head? = some c := by
    intro cs ds h hcs
    cases cs with
    | nil => cases hcs
    | cons d cs =>
      cases hcs
      obtain ⟨ds', rfl, -⟩ := of_cons hc hn h
      rfl
  exact ⟨hhead h, hhead h.symm⟩

theorem head?_ne {c x y : Char} (h : Reflow (opens c) cs ds) (hx : opens x = false)
    (hy : isBlank y = false) (hn : closes y = false) (hne : c = x → cs.head? ≠ some y) :
    c = x → ds.head? ≠ some y := by
  rintro rfl
  rw [hx] at h
  rw [ne_eq, ← h.head?_eq_some_iff hy hn]
  exact hne rfl

theorem mem_iff (h : Reflow free cs ds) {c : Char} (hc : isBlank c = false) :
    c ∈ cs ↔ c ∈ ds := by
  have hblanks : ∀ {bs : List Char}, Blanks bs → c ∉ bs := fun hb hm => hb.ne hm hc rfl
  induction h with
  | blanks hb hb' => simp [hblanks hb, hblanks hb']
  | solid hb hb' _ _ _ ih => simp [hblanks hb, hblanks hb', ih]

end Reflow

/-- A text with blanks for its comments, if they are well formed. The flag says whether a comment
is open. -/
def uncomment : Bool → List Char → Option (List Char)
  | false, [] => some []
  | false, '*' :: '/' :: _ => none
  | false, '/' :: '*' :: rest => (uncomment true rest).map (' ' :: ' ' :: ·)
  | false, c :: rest => (uncomment false rest).map (c :: ·)
  | true, [] => none
  | true, '*' :: '/' :: rest => (uncomment false rest).map (' ' :: ' ' :: ·)
  | true, _ :: rest => (uncomment true rest).map (' ' :: ·)

theorem stripFrom_problems (i : Nat) (st : OpenComment) (done : Stripped) (cs : List Char) :
    done.problems.reverse <+: (stripFrom i st done cs).problems := by
  fun_induction stripFrom i st done cs with
  | case1 => exact List.prefix_refl _
  | case2 i done rest ih =>
    refine List.IsPrefix.trans ?_ ih
    simp [Stripped.problem, Stripped.push]
  | case3 i done rest ih => exact ih
  | case4 i done c rest _ _ ih => exact ih
  | case5 => simp [Stripped.problem, Stripped.comment, Stripped.reverse]
  | case6 i start text done rest ih => exact ih
  | case7 i start text done c rest _ ih => exact ih

theorem stripFrom_of_uncomment (i : Nat) (st : OpenComment) (done : Stripped) (cs : List Char)
    {out : List Char} (h : uncomment st.isSome cs = some out) :
    (stripFrom i st done cs).chars = done.chars.reverse ++ out ∧
      (stripFrom i st done cs).problems = done.problems.reverse := by
  fun_induction stripFrom i st done cs generalizing out with
  | case1 =>
    cases h
    simp [Stripped.reverse]
  | case2 i done rest ih => cases h
  | case3 i done rest ih =>
    simp only [Option.isSome_none, uncomment, Option.map_eq_some_iff] at h
    obtain ⟨o, ho, rfl⟩ := h
    simpa [Stripped.push] using ih ho
  | case4 i done c rest h1 h2 ih =>
    simp only [Option.isSome_none, uncomment, Option.map_eq_some_iff] at h
    obtain ⟨o, ho, rfl⟩ := h
    simpa [Stripped.push] using ih ho
  | case5 => cases h
  | case6 i start text done rest ih =>
    simp only [Option.isSome_some, uncomment, Option.map_eq_some_iff] at h
    obtain ⟨o, ho, rfl⟩ := h
    simpa [Stripped.push, Stripped.comment] using ih ho
  | case7 i start text done c rest _ ih =>
    simp only [Option.isSome_some, uncomment, Option.map_eq_some_iff] at h
    obtain ⟨o, ho, rfl⟩ := h
    simpa [Stripped.push] using ih ho

theorem exists_uncomment (i : Nat) (st : OpenComment) (done : Stripped) (cs : List Char)
    (h : (stripFrom i st done cs).problems = []) : ∃ out, uncomment st.isSome cs = some out := by
  fun_induction stripFrom i st done cs with
  | case1 => exact ⟨[], rfl⟩
  | case2 i done rest ih =>
    have hp := stripFrom_problems (i + 2) none
      (((done.push '*').push '/').problem (strayEnd i)) rest
    rw [h] at hp
    simp [Stripped.problem] at hp
  | case3 i done rest ih =>
    obtain ⟨out, ho⟩ := ih h
    exact ⟨' ' :: ' ' :: out, by simpa [uncomment] using ho⟩
  | case4 i done c rest h1 h2 ih =>
    obtain ⟨out, ho⟩ := ih h
    exact ⟨c :: out, by simpa [uncomment] using ho⟩
  | case5 => simp [Stripped.problem, Stripped.reverse] at h
  | case6 i start text done rest ih =>
    obtain ⟨out, ho⟩ := ih h
    exact ⟨' ' :: ' ' :: out, by simpa [uncomment] using ho⟩
  | case7 i start text done c rest h1 ih =>
    obtain ⟨out, ho⟩ := ih h
    exact ⟨' ' :: out, by simpa [uncomment] using ho⟩

theorem uncomment_false_cons {c : Char} {cs : List Char} (hend : c = '*' → cs.head? ≠ some '/')
    (hstart : c = '/' → cs.head? ≠ some '*') :
    uncomment false (c :: cs) = (uncomment false cs).map (c :: ·) := by
  rw [uncomment]
  · rintro rest rfl rfl
    exact hend rfl rfl
  · rintro rest rfl rfl
    exact hstart rfl rfl

theorem uncomment_true_cons {c : Char} {cs : List Char} (hend : c = '*' → cs.head? ≠ some '/') :
    uncomment true (c :: cs) = (uncomment true cs).map (' ' :: ·) := by
  rw [uncomment]
  rintro rest rfl rfl
  exact hend rfl rfl

theorem uncomment_false_blanks {bs : List Char} (hb : Blanks bs) (cs : List Char) :
    uncomment false (bs ++ cs) = (uncomment false cs).map (bs ++ ·) := by
  induction bs with
  | nil => simp
  | cons b bs ih =>
    have hne : ∀ c, isBlank c = false → b = c → False := fun c hc => hb.ne (by simp) hc
    rw [List.cons_append, uncomment_false_cons (fun he => (hne '*' rfl he).elim)
      (fun he => (hne '/' rfl he).elim), ih fun c hc => hb c (by simp [hc]), Option.map_map]
    rfl

theorem uncomment_true_blanks {bs : List Char} (hb : Blanks bs) (cs : List Char) :
    uncomment true (bs ++ cs) =
      (uncomment true cs).map (List.replicate bs.length ' ' ++ ·) := by
  induction bs with
  | nil => simp
  | cons b bs ih =>
    have hne : b ≠ '*' := hb.ne (by simp) rfl
    rw [List.cons_append, uncomment_true_cons (fun he => (hne he).elim),
      ih fun c hc => hb c (by simp [hc]), Option.map_map]
    rfl

theorem blanks_replicate (n : Nat) : Blanks (List.replicate n ' ') := by
  intro b hb
  rw [(List.mem_replicate.mp hb).2]
  rfl

namespace Reflow

variable {free : Bool} {cs ds : List Char}

theorem pad_comment (h : Reflow free cs ds) {bs bs' : List Char} (hb : Blanks bs)
    (hb' : Blanks bs') (n : Nat) (free' : Bool) :
    Reflow free' (bs ++ (List.replicate (n + 1) ' ' ++ cs))
      (bs' ++ (List.replicate (n + 1) ' ' ++ ds)) := by
  rw [← List.append_assoc, ← List.append_assoc]
  exact h.pad (hb.append (blanks_replicate _)) (hb'.append (blanks_replicate _)) (by simp)
    (by simp) free'

theorem uncomment (h : Reflow free cs ds) {isOpen : Bool} {out : List Char}
    (ho : uncomment isOpen cs = some out) :
    ∃ out', Wordcode.uncomment isOpen ds = some out' ∧ Reflow (free || isOpen) out out' := by
  -- a mark of a comment has two characters, so that the rest is shorter by two
  induction hn : cs.length using Nat.strong_induction_on generalizing free cs ds isOpen out with
  | _ n ih =>
  cases h with
  | blanks hb hb' =>
    have hend : ∀ {bs : List Char}, Blanks bs → Wordcode.uncomment false bs = some bs := by
      intro bs hbs
      have hu := uncomment_false_blanks hbs []
      rw [List.append_nil] at hu
      simp [hu, Wordcode.uncomment]
    cases isOpen with
    | false =>
      rw [hend hb, Option.some.injEq] at ho
      subst ho
      exact ⟨ds, hend hb', .blanks hb hb'⟩
    | true =>
      have hu := uncomment_true_blanks hb []
      rw [List.append_nil, ho] at hu
      cases hu
  | @solid _ bs bs' cs ds c hb hb' hc hfree h =>
    simp only [List.length_append, List.length_cons] at hn
    cases isOpen with
    | false =>
      rw [uncomment_false_blanks hb] at ho
      obtain ⟨rest, hrest, rfl⟩ := Option.map_eq_some_iff.mp ho
      rw [uncomment_false_blanks hb']
      by_cases hstart : c = '/' ∧ cs.head? = some '*'
      · obtain ⟨rfl, hhead⟩ := hstart
        obtain ⟨cs, rfl⟩ := List.head?_eq_some_iff.mp hhead
        obtain ⟨ds, rfl, hin⟩ := of_cons rfl rfl h
        rw [Wordcode.uncomment] at hrest ⊢
        obtain ⟨o, hinner, rfl⟩ := Option.map_eq_some_iff.mp hrest
        obtain ⟨o', ho', hr⟩ := ih cs.length (by simp at hn; omega) hin hinner rfl
        rw [ho']
        exact ⟨_, rfl, hr.pad_comment hb hb' 1 _⟩
      by_cases hend : c = '*' ∧ cs.head? = some '/'
      · obtain ⟨rfl, hhead⟩ := hend
        obtain ⟨cs, rfl⟩ := List.head?_eq_some_iff.mp hhead
        cases hrest
      rw [not_and] at hstart hend
      rw [uncomment_false_cons hend hstart] at hrest
      obtain ⟨o, hinner, rfl⟩ := Option.map_eq_some_iff.mp hrest
      obtain ⟨o', ho', hr⟩ := ih cs.length (by omega) h hinner rfl
      rw [uncomment_false_cons (h.head?_ne rfl rfl rfl hend) (h.head?_ne rfl rfl rfl hstart), ho']
      rw [Bool.or_false] at hr ⊢
      exact ⟨_, rfl, .solid hb hb' hc hfree hr⟩
    | true =>
      rw [uncomment_true_blanks hb] at ho
      obtain ⟨rest, hrest, rfl⟩ := Option.map_eq_some_iff.mp ho
      rw [uncomment_true_blanks hb']
      by_cases hend : c = '*' ∧ cs.head? = some '/'
      · obtain ⟨rfl, hhead⟩ := hend
        obtain ⟨cs, rfl⟩ := List.head?_eq_some_iff.mp hhead
        obtain ⟨ds, rfl, hin⟩ := of_cons rfl rfl h
        rw [Wordcode.uncomment] at hrest ⊢
        obtain ⟨o, hinner, rfl⟩ := Option.map_eq_some_iff.mp hrest
        obtain ⟨o', ho', hr⟩ := ih cs.length (by simp at hn; omega) hin hinner rfl
        rw [ho']
        exact ⟨_, rfl, hr.pad_comment (blanks_replicate _) (blanks_replicate _) 1 _⟩
      · rw [not_and] at hend
        rw [uncomment_true_cons hend] at hrest
        obtain ⟨o, hinner, rfl⟩ := Option.map_eq_some_iff.mp hrest
        obtain ⟨o', ho', hr⟩ := ih cs.length (by omega) h hinner rfl
        rw [uncomment_true_cons (h.head?_ne rfl rfl rfl hend), ho']
        exact ⟨_, rfl, hr.pad_comment (blanks_replicate _) (blanks_replicate _) 0 _⟩

theorem stripComments (h : Reflow free cs ds) (hp : (stripComments cs).problems = []) :
    (stripComments ds).problems = [] ∧
      Reflow free (stripComments cs).chars (stripComments ds).chars := by
  obtain ⟨out, ho⟩ := exists_uncomment 0 none {} cs hp
  obtain ⟨out', ho', hr⟩ := h.uncomment ho
  have hcs := (stripFrom_of_uncomment 0 none {} cs ho).1
  have hds := stripFrom_of_uncomment 0 none {} ds ho'
  rw [Option.isSome_none, Bool.or_false] at hr
  refine ⟨hds.2, ?_⟩
  simp only [Wordcode.stripComments, hcs, hds.1]
  exact hr

end Reflow

namespace Segment

variable {nest : Nat → Char → Nat} {mark : Char}

def pieces (nest : Nat → Char → Nat) (mark : Char) : Nat → List Char → List (List Char)
  | _, [] => [[]]
  | depth, c :: cs =>
    if c == mark && depth == 0 then [] :: pieces nest mark depth cs
    else (pieces nest mark (nest depth c) cs).modifyHead (c :: ·)

theorem map_chars_splitFrom (i depth start : Nat) (piece : List Char) (done : List Segment)
    (cs : List Char) :
    (splitFrom nest mark i depth start piece done cs).map (·.chars) =
      done.reverse.map (·.chars) ++
        (pieces nest mark depth cs).modifyHead (piece.reverse ++ ·) := by
  induction cs generalizing i depth start piece done with
  | nil => simp [splitFrom, pieces]
  | cons c cs ih =>
    rw [splitFrom, pieces]
    split
    · rw [ih]
      have hid : (pieces nest mark depth cs).modifyHead (fun p => p) = pieces nest mark depth cs :=
        congrFun List.modifyHead_id _
      simp [hid]
    · rw [ih, List.modifyHead_modifyHead]
      simp [Function.comp_def]

theorem pieces_blanks (hmark : isBlank mark = false)
    (hnest : ∀ depth c, isBlank c = true → nest depth c = depth) {bs : List Char} (hb : Blanks bs)
    (depth : Nat) (cs : List Char) :
    pieces nest mark depth (bs ++ cs) = (pieces nest mark depth cs).modifyHead (bs ++ ·) := by
  induction bs with
  | nil => exact (congrFun List.modifyHead_id _).symm
  | cons b bs ih =>
    have hne : b ≠ mark := hb.ne (by simp) hmark
    rw [List.cons_append, pieces, hnest depth b (hb b (by simp)),
      ih fun c hc => hb c (by simp [hc]), List.modifyHead_modifyHead]
    simp [hne, Function.comp_def]

end Segment

/-- Segments of two texts, in which blanks at the start are of no account. -/
abbrev Segment.Alike (s s' : Segment) : Prop :=
  Reflow true s.chars s'.chars

namespace Reflow

variable {free : Bool} {cs ds : List Char}

theorem pieces {nest : Nat → Char → Nat} {mark : Char} (hmark : isBlank mark = false)
    (hopens : opens mark = true) (hnest : ∀ depth c, isBlank c = true → nest depth c = depth)
    (h : Reflow free cs ds) (depth : Nat) :
    ∃ p ps q qs, Segment.pieces nest mark depth cs = p :: ps ∧
      Segment.pieces nest mark depth ds = q :: qs ∧ Reflow free p q ∧
      List.Forall₂ (Reflow true) ps qs := by
  induction h generalizing depth with
  | @blanks free bs bs' hb hb' =>
    have hend : ∀ {bs : List Char}, Blanks bs → Segment.pieces nest mark depth bs = [bs] := by
      intro bs hbs
      have hp := Segment.pieces_blanks hmark hnest hbs depth []
      rw [List.append_nil] at hp
      rw [hp]
      simp [Segment.pieces]
    exact ⟨bs, [], bs', [], hend hb, hend hb', .blanks hb hb', .nil⟩
  | @solid free bs bs' cs ds c hb hb' hc hfree _ ih =>
    rw [Segment.pieces_blanks hmark hnest hb, Segment.pieces_blanks hmark hnest hb',
      Segment.pieces, Segment.pieces]
    by_cases hcut : (c == mark && depth == 0) = true
    · rw [if_pos hcut, if_pos hcut]
      obtain ⟨p, ps, q, qs, hp, hq, hpq, hrest⟩ := ih depth
      have hm : c = mark := by simp_all
      rw [hm, hopens] at hpq
      refine ⟨bs, p :: ps, bs', q :: qs, ?_, ?_, .blanks hb hb', .cons hpq hrest⟩
      · simp [hp]
      · simp [hq]
    · rw [if_neg hcut, if_neg hcut]
      obtain ⟨p, ps, q, qs, hp, hq, hpq, hrest⟩ := ih (nest depth c)
      refine ⟨bs ++ c :: p, ps, bs' ++ c :: q, qs, ?_, ?_, .solid hb hb' hc hfree hpq, hrest⟩
      · simp [hp]
      · simp [hq]

theorem splitFrom {nest : Nat → Char → Nat} {mark : Char} (hmark : isBlank mark = false)
    (hopens : opens mark = true) (hnest : ∀ depth c, isBlank c = true → nest depth c = depth)
    (h : Reflow true cs ds) (i j start start' : Nat) :
    List.Forall₂ Segment.Alike (Segment.splitFrom nest mark i 0 start [] [] cs)
      (Segment.splitFrom nest mark j 0 start' [] [] ds) := by
  obtain ⟨p, ps, q, qs, hp, hq, hpq, hrest⟩ := h.pieces hmark hopens hnest 0
  have hall : List.Forall₂ (Reflow true)
      ((Segment.splitFrom nest mark i 0 start [] [] cs).map (·.chars))
      ((Segment.splitFrom nest mark j 0 start' [] [] ds).map (·.chars)) := by
    rw [Segment.map_chars_splitFrom, Segment.map_chars_splitFrom, hp, hq]
    exact .cons hpq hrest
  rwa [List.forall₂_map_left_iff, List.forall₂_map_right_iff] at hall

theorem splitOuter {mark : Char} (hmark : isBlank mark = false) (hopens : opens mark = true)
    {s s' : Segment} (h : s.Alike s') :
    List.Forall₂ Segment.Alike (s.splitOuter mark) (s'.splitOuter mark) := by
  refine splitFrom hmark hopens ?_ h _ _ _ _
  intro depth c hc
  have hne : c ≠ '(' ∧ c ≠ ')' := ⟨ne_of_isBlank hc rfl, ne_of_isBlank hc rfl⟩
  simp [Segment.parens, hne]

theorem trimEnd (h : Reflow free cs ds) : Reflow free (trimEnd cs) (trimEnd ds) := by
  induction h with
  | blanks hb hb' =>
    have hend : ∀ {bs : List Char}, Blanks bs → Blanks (Wordcode.trimEnd bs) := by
      intro bs hbs c hc
      rw [Wordcode.trimEnd, List.mem_reverse] at hc
      exact hbs c (List.mem_reverse.mp ((List.dropWhile_suffix _).subset hc))
    exact .blanks (hend hb) (hend hb')
  | solid hb hb' hc hfree _ ih =>
    rw [trimEnd_append_cons hc, trimEnd_append_cons hc]
    exact .solid hb hb' hc hfree ih

theorem dropWhile_isBlank (h : Reflow true cs ds) :
    Reflow true (cs.dropWhile isBlank) (ds.dropWhile isBlank) := by
  cases h with
  | blanks hb hb' =>
    rw [List.dropWhile_eq_nil_iff.mpr hb, List.dropWhile_eq_nil_iff.mpr hb']
    exact .blanks blanks_nil blanks_nil
  | solid hb hb' hc _ h =>
    rw [List.dropWhile_append_of_pos hb, List.dropWhile_append_of_pos hb',
      List.dropWhile_cons_of_neg (by simp [hc]), List.dropWhile_cons_of_neg (by simp [hc])]
    exact .cons hc h

theorem trim {s s' : Segment} (h : s.Alike s') : s.trim.Alike s'.trim :=
  h.dropWhile_isBlank.trimEnd

theorem isEmpty_trim {s s' : Segment} (h : s.Alike s') : s.trim.isEmpty = s'.trim.isEmpty := by
  have hchars : ∀ {cs ds : List Char}, Reflow true cs ds →
      (Wordcode.trimEnd (cs.dropWhile isBlank)).isEmpty =
        (Wordcode.trimEnd (ds.dropWhile isBlank)).isEmpty := by
    intro cs ds h
    cases h with
    | blanks hb hb' =>
      rw [List.dropWhile_eq_nil_iff.mpr hb, List.dropWhile_eq_nil_iff.mpr hb']
    | @solid _ bs bs' cs ds c hb hb' hc _ _ =>
      have hsolid : ∀ (bs cs : List Char), Blanks bs →
          (Wordcode.trimEnd ((bs ++ c :: cs).dropWhile isBlank)).isEmpty = false := by
        intro bs cs hbs
        have ht := trimEnd_append_cons hc [] cs
        rw [List.nil_append] at ht
        rw [List.dropWhile_append_of_pos hbs, List.dropWhile_cons_of_neg (by simp [hc]), ht]
        rfl
      rw [hsolid bs cs hb, hsolid bs' ds hb']
  exact hchars h

theorem dropBlankLast {ss ss' : List Segment} (h : List.Forall₂ Segment.Alike ss ss') :
    List.Forall₂ Segment.Alike (Segment.dropBlankLast ss) (Segment.dropBlankLast ss') := by
  have hreverse : ∀ {rs rs' : List Segment}, List.Forall₂ Segment.Alike rs rs' →
      List.Forall₂ Segment.Alike (Segment.dropBlankLast rs.reverse)
        (Segment.dropBlankLast rs'.reverse) := by
    intro rs rs' h
    cases h with
    | nil => exact .nil
    | @cons last last' rs rs' hlast hrs =>
      have hinit := List.forall₂_reverse_iff.mpr hrs
      simp only [Segment.dropBlankLast, List.reverse_cons, List.getLast?_concat,
        List.dropLast_concat, isEmpty_trim hlast]
      split
      · exact hinit
      · exact List.rel_append hinit (.cons hlast .nil)
  have hss := hreverse (List.forall₂_reverse_iff.mpr h)
  rwa [List.reverse_reverse, List.reverse_reverse] at hss

theorem sources (h : Reflow true cs ds) :
    List.Forall₂ Segment.Alike (Segment.sources cs) (Segment.sources ds) :=
  dropBlankLast (splitFrom rfl rfl (fun _ _ _ => rfl) h 0 0 0 0)

theorem sides {s s' : Segment} (h : s.Alike s') {left right : Segment}
    (hs : s.sides = .ok (left, right)) :
    ∃ left' right', s'.sides = .ok (left', right') ∧ left.Alike left' ∧ right.Alike right' := by
  have hsplit := splitOuter (by rfl : isBlank ':' = false) rfl h
  unfold Segment.sides at hs ⊢
  split at hs
  · rename_i l r heq
    rw [heq] at hsplit
    cases hs
    obtain ⟨l', rest, hl, hrest, he⟩ := List.forall₂_cons_left_iff.mp hsplit
    obtain ⟨r', rest', hr, hrest', rfl⟩ := List.forall₂_cons_left_iff.mp hrest
    cases hrest'
    rw [he]
    exact ⟨l', r', rfl, hl, hr⟩
  · cases hs
  · cases hs
  · cases hs

end Reflow

end Wordcode
