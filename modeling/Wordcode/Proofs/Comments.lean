import Wordcode.Proofs.Independence

namespace Wordcode

namespace Stands

variable {text cs ds : List Char} {i m : Nat}

theorem pair_iff {a b : Char} :
    Stands text i (a :: b :: cs) ↔ Stands text i [a, b] ∧ Stands text (i + 2) cs := by
  rw [show a :: b :: cs = [a, b] ++ cs from rfl, append_iff]
  rfl

theorem inner (h : Stands text i cs) (hd : Stands text (i + m) ds)
    (hle : m + ds.length ≤ cs.length) : Stands cs m ds := by
  induction ds generalizing m with
  | nil => exact .nil (by simpa using hle)
  | cons d ds ih =>
    rw [List.length_cons] at hle
    have hm : m < cs.length := by omega
    have hc := List.getElem?_eq_getElem hm
    rw [cons_iff] at hd ⊢
    rw [h.getElem? hc] at hd
    exact ⟨hc.trans hd.1, ih hd.2 (by omega)⟩

theorem behind_comment {body rest : List Char}
    (h : Stands text i ('/' :: '*' :: (body ++ '*' :: '/' :: rest))) :
    Stands text (i + body.length + 4) rest := by
  have hends := (append_iff.mp (pair_iff.mp h).2).2
  have hi : i + 2 + body.length + 2 = i + body.length + 4 := by omega
  rw [← hi]
  exact (pair_iff.mp hends).2

theorem isInfix (h : Stands text i cs) : cs <:+: text := by
  obtain ⟨before, after, -, rfl⟩ := h
  exact ⟨before, after, rfl⟩

end Stands

def IsDelimiter (a b : Char) : Prop :=
  (a = '/' ∧ b = '*') ∨ (a = '*' ∧ b = '/')

/-- What a text from index `i` on is made of, and what is left of it without its comments: single
characters, ends of comments that did not start, comments up to the first end behind `/*`, and at
last possibly a comment without an end. -/
inductive Strips : Nat → List Char → Stripped → Prop
  | nil {i : Nat} : Strips i [] {}
  | plain {i : Nat} {c : Char} {rest : List Char} {s : Stripped} :
      (∀ d, rest.head? = some d → ¬ IsDelimiter c d) → Strips (i + 1) rest s →
      Strips i (c :: rest) (s.push c)
  | stray {i : Nat} {rest : List Char} {s : Stripped} : Strips (i + 2) rest s →
      Strips i ('*' :: '/' :: rest) (((s.push '/').push '*').problem (strayEnd i))
  | comment {i : Nat} {body rest : List Char} {s : Stripped} :
      ¬ ['*', '/'] <:+: body ++ ['*'] → Strips (i + body.length + 4) rest s →
      Strips i ('/' :: '*' :: (body ++ '*' :: '/' :: rest))
        ⟨List.replicate (body.length + 4) ' ' ++ s.chars,
          ⟨String.ofList ('/' :: '*' :: (body ++ ['*', '/'])), ⟨i, i + body.length + 3⟩⟩ ::
            s.comments,
          s.problems⟩
  | unterminated {i : Nat} {body : List Char} : ¬ ['*', '/'] <:+: body →
      Strips i ('/' :: '*' :: body)
        ⟨List.replicate (body.length + 2) ' ',
          [⟨String.ofList ('/' :: '*' :: body), ⟨i, i + body.length + 1⟩⟩],
          [unterminated i (i + body.length + 2)]⟩

theorem exists_end (cs : List Char) :
    ¬ ['*', '/'] <:+: cs ∨
      ∃ body rest, cs = body ++ '*' :: '/' :: rest ∧ ¬ ['*', '/'] <:+: body ++ ['*'] := by
  induction cs with
  | nil => exact .inl (by simp)
  | cons c cs ih =>
    by_cases hc : ['*', '/'] <+: c :: cs
    · obtain ⟨rest, hrest⟩ := hc
      exact .inr ⟨[], rest, hrest.symm, by decide⟩
    · rcases ih with hno | ⟨body, rest, rfl, hno⟩
      · refine .inl ?_
        rw [List.infix_cons_iff]
        exact fun h => h.elim hc hno
      · refine .inr ⟨c :: body, rest, rfl, ?_⟩
        rw [List.cons_append, List.infix_cons_iff]
        rintro (h | h)
        · refine hc (h.trans ?_)
          rw [List.cons_prefix_cons]
          exact ⟨rfl, by simp⟩
        · exact hno h

theorem exists_strips (i : Nat) (cs : List Char) : ∃ s, Strips i cs s := by
  induction hn : cs.length using Nat.strong_induction_on generalizing i cs with
  | _ n ih =>
  cases cs with
  | nil => exact ⟨_, .nil⟩
  | cons c rest =>
    by_cases hd : ∃ d, rest.head? = some d ∧ IsDelimiter c d
    · obtain ⟨d, hhead, hd⟩ := hd
      obtain ⟨rest, rfl⟩ := List.head?_eq_some_iff.mp hhead
      simp only [List.length_cons] at hn
      rcases hd with ⟨rfl, rfl⟩ | ⟨rfl, rfl⟩
      · rcases exists_end rest with hno | ⟨body, tail, rfl, hno⟩
        · exact ⟨_, .unterminated hno⟩
        · obtain ⟨s, hs⟩ := ih tail.length (by simp at hn; omega) (i + body.length + 4) tail rfl
          exact ⟨_, .comment hno hs⟩
      · obtain ⟨s, hs⟩ := ih rest.length (by omega) (i + 2) rest rfl
        exact ⟨_, .stray hs⟩
    · obtain ⟨s, hs⟩ := ih rest.length (by simp at hn; omega) (i + 1) rest rfl
      exact ⟨_, .plain (fun d hhead hdel => hd ⟨d, hhead, hdel⟩) hs⟩

theorem stripFrom_open_append (i start : Nat) (text : List Char) (done : Stripped)
    {body : List Char} (h : ¬ ['*', '/'] <:+: body ++ ['*']) (rest : List Char) :
    stripFrom i (some (start, text)) done (body ++ '*' :: '/' :: rest) =
      stripFrom (i + body.length + 2) none
        (Stripped.comment start (i + body.length + 2) ('/' :: '*' :: (body.reverse ++ text))
          { done with chars := List.replicate (body.length + 2) ' ' ++ done.chars }) rest := by
  induction body generalizing i text done with
  | nil => rfl
  | cons c body ih =>
    rw [List.cons_append, List.infix_cons_iff, not_or] at h
    have hend : ∀ rest', c = '*' → body ++ '*' :: '/' :: rest = '/' :: rest' → False := by
      rintro rest' rfl hrest
      cases body with
      | nil => cases hrest
      | cons d body =>
        cases hrest
        exact h.1 (by simp)
    rw [List.cons_append, stripFrom.eq_7 _ _ _ _ _ _ hend, ih _ _ _ h.2, List.length_cons,
      Nat.add_right_comm i 1]
    simp only [Stripped.push, List.replicate_succ', List.append_assoc, List.reverse_cons,
      List.singleton_append]
    rfl

theorem stripFrom_open_end (i start : Nat) (text : List Char) (done : Stripped)
    {body : List Char} (h : ¬ ['*', '/'] <:+: body) :
    stripFrom i (some (start, text)) done body =
      ((Stripped.comment start (i + body.length) (body.reverse ++ text)
        { done with chars := List.replicate body.length ' ' ++ done.chars }).problem
          (unterminated start (i + body.length))).reverse := by
  induction body generalizing i text done with
  | nil => rfl
  | cons c body ih =>
    rw [List.infix_cons_iff, not_or] at h
    have hend : ∀ rest', c = '*' → body = '/' :: rest' → False := by
      rintro rest' rfl rfl
      exact h.1 (by simp)
    rw [stripFrom.eq_7 _ _ _ _ _ _ hend, ih _ _ _ h.2, List.length_cons, Nat.add_right_comm i 1]
    simp only [Stripped.push, List.replicate_succ', List.append_assoc, List.reverse_cons,
      List.singleton_append]
    rfl

theorem Strips.stripFrom_eq {i : Nat} {cs : List Char} {s : Stripped} (h : Strips i cs s) :
    stripFrom i none {} cs = s := by
  have hdone : ∀ (i : Nat) (done : Stripped) (cs : List Char),
      stripFrom i none done cs = done.reverse.append (stripFrom i none {} cs) := by
    intro i done cs
    exact stripFrom_append_done i none {} done cs
  induction h with
  | nil => rfl
  | @plain i c rest s hplain _ ih =>
    have hend : ∀ rest', c = '*' → rest = '/' :: rest' → False := by
      rintro rest' rfl rfl
      exact hplain '/' rfl (.inr ⟨rfl, rfl⟩)
    have hstart : ∀ rest', c = '/' → rest = '*' :: rest' → False := by
      rintro rest' rfl rfl
      exact hplain '*' rfl (.inl ⟨rfl, rfl⟩)
    rw [stripFrom.eq_4 _ _ _ _ hend hstart, hdone, ih]
    rfl
  | stray _ ih =>
    rw [stripFrom, hdone, ih]
    rfl
  | @comment i body rest s hno _ ih =>
    have hi : i + 2 + body.length + 2 = i + body.length + 4 := by omega
    have hblanks : (List.replicate (body.length + 2) ' ' ++ [' ', ' ']).reverse =
        List.replicate (body.length + 4) ' ' := by
      rw [List.reverse_append, List.reverse_replicate]
      rfl
    rw [stripFrom, stripFrom_open_append _ _ _ _ hno, hi, hdone, ih]
    simp only [Stripped.comment, Stripped.push, Stripped.reverse, Stripped.append, hblanks]
    simp
  | @unterminated i body hno =>
    have hi : i + 2 + body.length = i + body.length + 2 := by omega
    rw [stripFrom, stripFrom_open_end _ _ _ _ hno, hi]
    simp [Stripped.comment, Stripped.problem, Stripped.push, Stripped.reverse, List.replicate_succ]

theorem strips_stripComments (text : List Char) : Strips 0 text (stripComments text) := by
  obtain ⟨s, hs⟩ := exists_strips 0 text
  rw [stripComments, hs.stripFrom_eq]
  exact hs

def Comment.Covers (c : Comment) (i : Nat) : Prop :=
  c.position.first ≤ i ∧ i ≤ c.position.last

/-- The comment ends with the first `*/` that stands behind its first two characters. -/
def Comment.IsClosed (text : List Char) (c : Comment) : Prop :=
  ∃ k, c.position.first + 2 ≤ k ∧ c.position.last = k + 1 ∧ Stands text k ['*', '/'] ∧
    ∀ j, c.position.first + 2 ≤ j → j < k → ¬ Stands text j ['*', '/']

/-- The comments are closed, or the last one is cut off by the end of the text and reported after
all ends of comments that did not start. -/
inductive Stripped.Ends (text : List Char) (s : Stripped) : Prop
  | closed : (∀ c ∈ s.comments, c.IsClosed text) → (∀ p ∈ s.problems, ∃ k, p = strayEnd k) →
      Ends text s
  | cut {closed : List Comment} {last : Comment} {strays : List Problem} :
      s.comments = closed ++ [last] →
      s.problems = strays ++ [unterminated last.position.first (last.position.last + 1)] →
      (∀ c ∈ closed, c.IsClosed text) → (∀ p ∈ strays, ∃ k, p = strayEnd k) →
      last.position.last + 1 = text.length →
      (∀ j, last.position.first + 2 ≤ j → ¬ Stands text j ['*', '/']) → Ends text s

namespace Stripped.Ends

variable {text : List Char} {s : Stripped}

theorem push (h : s.Ends text) (c : Char) : (s.push c).Ends text := by
  cases h with
  | closed hcomments hproblems => exact .closed hcomments hproblems
  | cut hcomments hproblems hclosed hstrays hlast hno =>
    exact .cut hcomments hproblems hclosed hstrays hlast hno

theorem stray (h : s.Ends text) (k : Nat) : (s.problem (strayEnd k)).Ends text := by
  cases h with
  | closed hcomments hproblems =>
    exact .closed hcomments (List.forall_mem_cons.mpr ⟨⟨k, rfl⟩, hproblems⟩)
  | @cut closed last strays hcomments hproblems hclosed hstrays hlast hno =>
    have hreported : (s.problem (strayEnd k)).problems = strayEnd k :: strays ++
        [unterminated last.position.first (last.position.last + 1)] := by
      rw [problem, hproblems, List.cons_append]
    exact .cut hcomments hreported hclosed (List.forall_mem_cons.mpr ⟨⟨k, rfl⟩, hstrays⟩) hlast
      hno

theorem comment (h : s.Ends text) {c : Comment} (hc : c.IsClosed text) (chars : List Char) :
    Ends text ⟨chars, c :: s.comments, s.problems⟩ := by
  cases h with
  | closed hcomments hproblems =>
    exact .closed (List.forall_mem_cons.mpr ⟨hc, hcomments⟩) hproblems
  | @cut closed last strays hcomments hproblems hclosed hstrays hlast hno =>
    have hfirst : c :: s.comments = c :: closed ++ [last] := by
      rw [hcomments, List.cons_append]
    exact .cut hfirst hproblems (List.forall_mem_cons.mpr ⟨hc, hclosed⟩) hstrays hlast hno

end Stripped.Ends

theorem Stands.not_end {text cs : List Char} {i j : Nat} (h : Stands text i cs)
    (hno : ¬ ['*', '/'] <:+: cs) (hlo : i ≤ j) (hhi : j + 2 ≤ i + cs.length) :
    ¬ Stands text j ['*', '/'] := by
  obtain ⟨m, rfl⟩ := Nat.exists_eq_add_of_le hlo
  intro hj
  refine hno (h.inner hj ?_).isInfix
  simp only [List.length_cons, List.length_nil]
  omega

theorem Comment.isClosed_of_stands {text body rest : List Char} {i : Nat} (word : String)
    (h : Stands text i ('/' :: '*' :: (body ++ '*' :: '/' :: rest)))
    (hno : ¬ ['*', '/'] <:+: body ++ ['*']) :
    IsClosed text ⟨word, ⟨i, i + body.length + 3⟩⟩ := by
  have hbody := (Stands.pair_iff.mp h).2
  have hends := (Stands.append_iff.mp hbody).2
  rw [List.append_cons, Stands.append_iff] at hbody
  refine ⟨i + 2 + body.length, ?_, ?_, (Stands.pair_iff.mp hends).1, ?_⟩
  · exact Nat.le_add_right _ _
  · dsimp only
    omega
  · intro j hlo hhi
    refine hbody.1.not_end hno hlo ?_
    rw [List.length_append, List.length_singleton]
    omega

namespace Strips

variable {text cs : List Char} {i : Nat} {s : Stripped}

theorem le_first (h : Strips i cs s) : ∀ c ∈ s.comments, i ≤ c.position.first := by
  induction h with
  | nil => simp
  | plain _ _ ih => exact fun c hc => (Nat.le_succ _).trans (ih c hc)
  | stray _ ih => exact fun c hc => (Nat.le_add_right _ 2).trans (ih c hc)
  | comment _ _ ih =>
    rw [List.forall_mem_cons]
    refine ⟨Nat.le_refl _, ?_⟩
    intro c hc
    have hle := ih c hc
    omega
  | unterminated => simp

theorem not_covers (h : Strips i cs s) {j : Nat} (hj : j < i) :
    ∀ c ∈ s.comments, ¬ c.Covers j := by
  intro c hc hcovers
  have hle := h.le_first c hc
  have hfirst := hcovers.1
  omega

theorem pairwise (h : Strips i cs s) :
    s.comments.Pairwise fun c d => c.position.last < d.position.first := by
  induction h with
  | nil => exact .nil
  | plain _ _ ih => exact ih
  | stray _ ih => exact ih
  | comment _ hrest ih =>
    refine .cons ?_ ih
    intro c hc
    have hle := hrest.le_first c hc
    dsimp only
    omega
  | unterminated => exact List.pairwise_singleton _ _

theorem opens (h : Strips i cs s) (hcs : Stands text i cs) :
    ∀ c ∈ s.comments, Stands text c.position.first ['/', '*'] := by
  induction h with
  | nil => simp
  | plain _ _ ih => exact ih (Stands.cons_iff.mp hcs).2
  | stray _ ih => exact ih (Stands.pair_iff.mp hcs).2
  | comment _ _ ih =>
    exact List.forall_mem_cons.mpr ⟨(Stands.pair_iff.mp hcs).1, ih hcs.behind_comment⟩
  | unterminated => exact List.forall_mem_singleton.mpr (Stands.pair_iff.mp hcs).1

theorem ends (h : Strips i cs s) (hcs : Stands text i cs) (hend : i + cs.length = text.length) :
    s.Ends text := by
  induction h with
  | nil => exact .closed (by simp) (by simp)
  | plain _ _ ih =>
    rw [List.length_cons] at hend
    exact (ih (Stands.cons_iff.mp hcs).2 (by omega)).push _
  | stray _ ih =>
    rw [List.length_cons, List.length_cons] at hend
    have hrest := ih (Stands.pair_iff.mp hcs).2 (by omega)
    exact ((hrest.push '/').push '*').stray _
  | @comment i body rest s hno _ ih =>
    simp only [List.length_cons, List.length_append] at hend
    exact (ih hcs.behind_comment (by omega)).comment (Comment.isClosed_of_stands _ hcs hno) _
  | @unterminated i body hno =>
    simp only [List.length_cons] at hend
    refine @Stripped.Ends.cut _ _ [] _ [] rfl rfl (by simp) (by simp) (by dsimp only; omega) ?_
    intro j hlo hj
    have hle := hj.le
    refine (Stands.pair_iff.mp hcs).2.not_end hno hlo ?_ hj
    simp only [List.length_cons, List.length_nil] at hle ⊢
    omega

theorem getElem?_chars (h : Strips i cs s) (j : Nat) :
    ((∃ c ∈ s.comments, c.Covers (i + j)) ∧ s.chars[j]? = some ' ') ∨
      ((∀ c ∈ s.comments, ¬ c.Covers (i + j)) ∧ s.chars[j]? = cs[j]?) := by
  induction h generalizing j with
  | nil => exact .inr ⟨by simp, rfl⟩
  | @plain i c rest s _ hrest ih =>
    cases j with
    | zero => exact .inr ⟨hrest.not_covers (Nat.lt_succ_self _), rfl⟩
    | succ j =>
      rw [← Nat.add_assoc, Nat.add_right_comm]
      exact ih j
  | @stray i rest s hrest ih =>
    match j with
    | 0 => exact .inr ⟨hrest.not_covers (by omega), rfl⟩
    | 1 => exact .inr ⟨hrest.not_covers (by omega), rfl⟩
    | j + 2 =>
      rw [Nat.add_comm j, ← Nat.add_assoc]
      have hj := ih j
      rwa [Nat.add_comm 2 j]
  | @comment i body rest s _ hrest ih =>
    have hsplit : '/' :: '*' :: (body ++ '*' :: '/' :: rest) =
        ('/' :: '*' :: (body ++ ['*', '/'])) ++ rest := by simp
    have hlen : ('/' :: '*' :: (body ++ ['*', '/'])).length = body.length + 4 := by simp
    rcases Nat.lt_or_ge j (body.length + 4) with hj | hj
    · refine .inl ⟨⟨_, List.mem_cons_self, Nat.le_add_right _ _, ?_⟩, ?_⟩
      · dsimp only
        omega
      · rw [List.getElem?_append_left (by simpa using hj), List.getElem?_replicate, if_pos hj]
    · obtain ⟨m, rfl⟩ := Nat.exists_eq_add_of_le hj
      have hindex : i + (body.length + 4 + m) = i + body.length + 4 + m := by omega
      rw [hsplit, List.getElem?_append_right (by simp), List.getElem?_append_right (by simp), hlen,
        List.length_replicate, Nat.add_sub_cancel_left, hindex]
      rcases ih m with ⟨⟨c, hc, hcovers⟩, hchar⟩ | ⟨hnone, hchar⟩
      · exact .inl ⟨⟨c, List.mem_cons_of_mem _ hc, hcovers⟩, hchar⟩
      · refine .inr ⟨List.forall_mem_cons.mpr ⟨?_, hnone⟩, hchar⟩
        rintro ⟨-, hlast⟩
        dsimp only at hlast
        omega
  | @unterminated i body _ =>
    rcases Nat.lt_or_ge j (body.length + 2) with hj | hj
    · refine .inl ⟨⟨_, List.mem_cons_self, Nat.le_add_right _ _, ?_⟩, ?_⟩
      · dsimp only
        omega
      · rw [List.getElem?_replicate, if_pos hj]
    · refine .inr ⟨List.forall_mem_singleton.mpr ?_, ?_⟩
      · rintro ⟨-, hlast⟩
        dsimp only at hlast
        omega
      · have hlen : ('/' :: '*' :: body).length ≤ j := hj
        rw [List.getElem?_eq_none (by simpa using hj), List.getElem?_eq_none hlen]

theorem head?_chars (h : Strips i cs s) {x : Char} (hx : x ≠ ' ') (hs : s.chars.head? = some x) :
    cs.head? = some x := by
  rw [List.head?_eq_getElem?] at hs ⊢
  rcases h.getElem?_chars 0 with ⟨-, hblank⟩ | ⟨-, hkept⟩
  · rw [hs, Option.some.injEq] at hblank
    exact absurd hblank hx
  · rw [← hkept, hs]

theorem plain_chars (h : Strips i cs s) {c : Char}
    (hplain : ∀ d, cs.head? = some d → ¬ IsDelimiter c d) :
    ∀ d, s.chars.head? = some d → ¬ IsDelimiter c d := by
  intro d hd hdelimiter
  have hne : d ≠ ' ' := by
    rcases hdelimiter with ⟨-, rfl⟩ | ⟨-, rfl⟩
    · decide
    · decide
  exact hplain d (h.head?_chars hne hd) hdelimiter

theorem not_isInfix (h : Strips i cs s) (hp : s.problems = []) {a b : Char}
    (hd : IsDelimiter a b) : ¬ [a, b] <:+: s.chars := by
  have ha : a ≠ ' ' := by
    rcases hd with ⟨rfl, -⟩ | ⟨rfl, -⟩
    · decide
    · decide
  induction h with
  | nil => simp
  | @plain i c rest s hplain hrest ih =>
    rw [Stripped.push, List.infix_cons_iff, List.cons_prefix_cons]
    rintro (⟨rfl, hb⟩ | hinfix)
    · obtain ⟨tail, htail⟩ := hb
      exact hrest.plain_chars hplain b (by rw [← htail]; rfl) hd
    · exact ih hp hinfix
  | stray => cases hp
  | @comment i body rest s _ _ ih =>
    generalize body.length + 4 = n
    induction n with
    | zero => simpa using ih hp
    | succ n ihn =>
      rw [List.replicate_succ, List.cons_append, List.infix_cons_iff, List.cons_prefix_cons]
      rintro (⟨rfl, -⟩ | hinfix)
      · exact ha rfl
      · exact ihn hinfix
  | unterminated => cases hp

theorem blanks (n : Nat) (h : Strips (i + n) cs s) :
    Strips i (List.replicate n ' ' ++ cs)
      ⟨List.replicate n ' ' ++ s.chars, s.comments, s.problems⟩ := by
  induction n generalizing i with
  | zero => exact h
  | succ n ih =>
    rw [← Nat.add_assoc, Nat.add_right_comm] at h
    refine .plain ?_ (ih h)
    rintro d - (⟨hc, -⟩ | ⟨hc, -⟩)
    · exact absurd hc (by decide)
    · exact absurd hc (by decide)

theorem again (h : Strips i cs s) :
    Strips i s.chars
      ⟨s.chars, [], s.problems.filter fun p => p.code = .unexpectedToken⟩ := by
  induction h with
  | nil => exact .nil
  | plain hplain hrest ih => exact .plain (hrest.plain_chars hplain) ih
  | stray _ ih => exact .stray ih
  | @comment i body rest s _ _ ih =>
    rw [Nat.add_assoc] at ih
    exact ih.blanks
  | @unterminated i body _ =>
    have h := (Strips.nil (i := i + (body.length + 2))).blanks
    rw [List.append_nil] at h
    exact h

end Strips

/-- What a text without its comments has to do with the text: each comment starts with `/*` and ends
with the next `*/`, if there is one, its characters are blanked, and all others are kept. -/
structure Stripped.IsFrom (text : List Char) (s : Stripped) : Prop where
  length : s.chars.length = text.length
  ordered : s.comments.Pairwise fun c d => c.position.last < d.position.first
  marks : ∀ c ∈ s.comments, c.Marks text
  inside : ∀ i, (∃ c ∈ s.comments, c.Covers i) → s.chars[i]? = some ' '
  outside : ∀ i, (∀ c ∈ s.comments, ¬ c.Covers i) → s.chars[i]? = text[i]?
  opens : ∀ c ∈ s.comments, Stands text c.position.first ['/', '*']
  ends : s.Ends text

/-- Comments are blanked out and nothing else is changed. If nothing is reported no delimiter is
left, and a second time only the ends of comments that did not start are reported once more. -/
theorem stripComments_isFrom (text : List Char) :
    (stripComments text).IsFrom text ∧
      ((stripComments text).problems = [] →
        ¬ ['/', '*'] <:+: (stripComments text).chars ∧
          ¬ ['*', '/'] <:+: (stripComments text).chars) ∧
      stripComments (stripComments text).chars =
        ⟨(stripComments text).chars, [],
          (stripComments text).problems.filter fun p => p.code = .unexpectedToken⟩ := by
  have h := strips_stripComments text
  refine ⟨⟨length_stripComments text, h.pairwise, (marks_stripComments text).comments, ?_, ?_,
    h.opens (.self text), h.ends (.self text) (Nat.zero_add _)⟩, ?_, h.again.stripFrom_eq⟩
  · intro i hcovered
    rcases h.getElem?_chars i with ⟨-, hblank⟩ | ⟨hnone, -⟩
    · exact hblank
    · obtain ⟨c, hc, hcovers⟩ := hcovered
      exact absurd (by rwa [Nat.zero_add]) (hnone c hc)
  · intro i hnone
    rcases h.getElem?_chars i with ⟨⟨c, hc, hcovers⟩, -⟩ | ⟨-, hkept⟩
    · exact absurd (by rwa [Nat.zero_add] at hcovers) (hnone c hc)
    · exact hkept
  · intro hp
    exact ⟨h.not_isInfix hp (.inl ⟨rfl, rfl⟩), h.not_isInfix hp (.inr ⟨rfl, rfl⟩)⟩

example : (stripComments "/*/ a */* b */".toList).comments.map (·.position) = [⟨0, 7⟩] ∧
    (stripComments "/*/ a */* b */".toList).problems = [strayEnd 12] := by
  decide

end Wordcode
