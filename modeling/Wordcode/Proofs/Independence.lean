import Wordcode.Proofs.Blanking
import Wordcode.Proofs.Shifts

namespace Wordcode

def Comment.move (g : Nat → Nat) (c : Comment) : Comment :=
  { c with position := c.position.move g }

namespace Stripped

def move (g : Nat → Nat) (s : Stripped) : Stripped :=
  ⟨s.chars, s.comments.map (Comment.move g), s.problems.map (Problem.move g)⟩

def append (s t : Stripped) : Stripped :=
  ⟨s.chars ++ t.chars, s.comments ++ t.comments, s.problems ++ t.problems⟩

end Stripped

theorem stripFrom_append_done (i : Nat) (st : OpenComment) (done base : Stripped)
    (cs : List Char) :
    stripFrom i st (done.append base) cs = base.reverse.append (stripFrom i st done cs) := by
  fun_induction stripFrom i st done cs with
  | case1 => simp [stripFrom, Stripped.reverse, Stripped.append]
  | case2 i done rest ih => exact ih
  | case3 i done rest ih => exact ih
  | case4 i done c rest hend hstart ih =>
    rw [stripFrom.eq_4 _ _ _ _ hend hstart]
    exact ih
  | case5 =>
    simp [stripFrom, Stripped.reverse, Stripped.append, Stripped.comment, Stripped.problem]
  | case6 i start text done rest ih => exact ih
  | case7 i start text done c rest hend ih =>
    rw [stripFrom.eq_7 _ _ _ _ _ _ hend]
    exact ih

def OpenComment.Before (i : Nat) (st : OpenComment) : Prop :=
  ∀ c ∈ st, c.1 < i

theorem stripFrom_shift {n : Nat} (i : Nat) (st : OpenComment) (done : Stripped) (cs : List Char)
    (h : st.Before i) :
    stripFrom (i + n) (st.map (Prod.map (· + n) id)) (done.move (· + n)) cs =
      (stripFrom i st done cs).move (· + n) := by
  fun_induction stripFrom i st done cs with
  | case1 => simp [stripFrom, Stripped.reverse, Stripped.move]
  | case2 i done rest ih =>
    rw [Option.map_none, stripFrom, ← ih (by simp [OpenComment.Before]), Nat.add_right_comm i n 2]
    have hstray : strayEnd (i + n) = (strayEnd i).move (· + n) := by
      simp only [strayEnd, Problem.move, Position.move, Nat.add_right_comm]
    rw [hstray]
    rfl
  | case3 i done rest ih =>
    rw [Option.map_none, stripFrom, ← ih (by simp [OpenComment.Before]), Nat.add_right_comm i n 2]
    rfl
  | case4 i done c rest hend hstart ih =>
    rw [Option.map_none, stripFrom.eq_4 _ _ _ _ hend hstart, ← ih (by simp [OpenComment.Before]),
      Nat.add_right_comm i n 1]
    rfl
  | case5 i start text done =>
    have hlt : start < i := h (start, text) rfl
    have hlast : i + n - 1 = i - 1 + n := by omega
    simp [stripFrom, Stripped.reverse, Stripped.comment, Stripped.problem, Stripped.move,
      unterminated, Problem.move, Comment.move, Position.move, hlast]
  | case6 i start text done rest ih =>
    have hlast : i + n + 2 - 1 = i + 2 - 1 + n := by omega
    rw [Option.map_some, Prod.map_apply, stripFrom, ← ih (by simp [OpenComment.Before]),
      ← Nat.add_right_comm i n 2]
    simp only [Stripped.comment, hlast]
    rfl
  | case7 i start text done c rest hend ih =>
    have hlt : start < i := h (start, text) rfl
    have hbefore : OpenComment.Before (i + 1) (some (start, c :: text)) := by
      rintro _ ⟨⟩
      exact Nat.lt_succ_of_lt hlt
    rw [Option.map_some, Prod.map_apply, id_eq, stripFrom.eq_7 _ _ _ _ _ _ hend, ← ih hbefore,
      Nat.add_right_comm i n 1]
    rfl

theorem stripFrom_append (i : Nat) (st : OpenComment) (done : Stripped) (a b : List Char)
    (h : ∀ p ∈ (stripFrom i st done a).problems, p.code ≠ .unexpectedEndOfComment) :
    stripFrom i st done (a ++ ';' :: b) =
      stripFrom (i + a.length + 1) none ((stripFrom i st done a).reverse.push ';') b := by
  have hone : ∀ (i : Nat) (c : Char) (cs : List Char),
      i + (c :: cs).length + 1 = i + 1 + cs.length + 1 := by
    intro i c cs
    rw [List.length_cons]
    omega
  have htwo : ∀ (i : Nat) (c d : Char) (cs : List Char),
      i + (c :: d :: cs).length + 1 = i + 2 + cs.length + 1 := by
    intro i c d cs
    rw [List.length_cons, List.length_cons]
    omega
  -- a semicolon is no part of a delimiter, so none is completed by it
  have hsplit : ∀ {c x y : Char} {rest : List Char}, y ≠ ';' →
      (∀ rest', c = x → rest = y :: rest' → False) →
      ∀ rest', c = x → rest ++ ';' :: b = y :: rest' → False := by
    intro c x y rest hy hne rest' hc hrest
    cases rest with
    | nil =>
      rw [List.nil_append, List.cons.injEq] at hrest
      exact hy hrest.1.symm
    | cons d rest =>
      rw [List.cons_append, List.cons.injEq] at hrest
      exact hne rest hc (by rw [hrest.1])
  fun_induction stripFrom i st done a with
  | case1 i done =>
    rw [List.nil_append, stripFrom.eq_4 _ _ _ _ (by simp) (by simp)]
    simp [Stripped.reverse]
  | case2 i done rest ih => rw [htwo, List.cons_append, List.cons_append, stripFrom, ih h]
  | case3 i done rest ih => rw [htwo, List.cons_append, List.cons_append, stripFrom, ih h]
  | case4 i done c rest hend hstart ih =>
    rw [hone, List.cons_append, stripFrom.eq_4 _ _ _ _ (hsplit (by decide) hend)
      (hsplit (by decide) hstart), ih h]
  | case5 i start text done =>
    have hp : unterminated start i ∈
        ((done.comment start i text).problem (unterminated start i)).reverse.problems := by
      simp [Stripped.reverse, Stripped.problem]
    exact absurd rfl (h _ hp)
  | case6 i start text done rest ih =>
    rw [htwo, List.cons_append, List.cons_append, stripFrom, ih h]
  | case7 i start text done c rest hend ih =>
    rw [hone, List.cons_append, stripFrom.eq_7 _ _ _ _ _ _ (hsplit (by decide) hend), ih h]

theorem stripComments_append {a : List Char} (b : List Char)
    (h : ∀ p ∈ (stripComments a).problems, p.code ≠ .unexpectedEndOfComment) :
    stripComments (a ++ ';' :: b) =
      ⟨(stripComments a).chars ++ ';' :: (stripComments b).chars,
        (stripComments a).comments ++
          (stripComments b).comments.map (Comment.move (· + (a.length + 1))),
        (stripComments a).problems ++
          (stripComments b).problems.map (Problem.move (· + (a.length + 1)))⟩ := by
  have hdone := stripFrom_append_done (a.length + 1) none {}
    ((stripComments a).reverse.push ';') b
  have hshift := stripFrom_shift (n := a.length + 1) 0 none {} b (by simp [OpenComment.Before])
  rw [Nat.zero_add] at hshift
  have happend := stripFrom_append 0 none {} a b h
  rw [Nat.zero_add] at happend
  rw [stripComments, happend]
  refine hdone.trans ?_
  have hempty : Stripped.move (· + (a.length + 1)) {} = {} := rfl
  rw [hempty, Option.map_none] at hshift
  rw [hshift]
  simp [Stripped.append, Stripped.reverse, Stripped.push, Stripped.move, stripComments]

namespace Segment

theorem splitFrom_append_mark (mark : Char) (i start : Nat) (piece : List Char)
    (done : List Segment) (cs ds : List Char) :
    splitFrom (fun depth _ => depth) mark i 0 start piece done (cs ++ mark :: ds) =
      splitFrom (fun depth _ => depth) mark i 0 start piece done cs ++
        splitFrom (fun depth _ => depth) mark (i + cs.length + 1) 0 (i + cs.length + 1) [] []
          ds := by
  induction cs generalizing i start piece done with
  | nil =>
    have hmark : splitFrom (fun depth _ => depth) mark i 0 start piece done (mark :: ds) =
        splitFrom (fun depth _ => depth) mark (i + 1) 0 (i + 1) []
          (⟨start, piece.reverse⟩ :: done) ds := if_pos (by simp)
    rw [List.nil_append, hmark, splitFrom_done]
    rfl
  | cons c cs ih =>
    have hlen : i + (c :: cs).length + 1 = i + 1 + cs.length + 1 := by
      rw [List.length_cons]
      omega
    rw [List.cons_append, splitFrom, splitFrom, hlen]
    split
    · exact ih _ _ _ _
    · exact ih _ _ _ _

theorem split_append (mark : Char) (cs ds : List Char) :
    split mark ⟨0, cs ++ mark :: ds⟩ =
      split mark ⟨0, cs⟩ ++ (split mark ⟨0, ds⟩).map (shift (cs.length + 1)) := by
  have hshift := splitFrom_shift (n := cs.length + 1) (fun depth _ => depth) mark 0 0 0 [] [] ds
  have happend := splitFrom_append_mark mark 0 0 [] [] cs ds
  rw [Nat.zero_add] at hshift happend
  rw [split, happend]
  exact congrArg _ hshift

theorem split_ne_nil (mark : Char) (cs : List Char) : split mark ⟨0, cs⟩ ≠ [] :=
  (row_split (s := ⟨0, cs⟩) (Stands.self cs)).ne_nil

theorem dropBlankLast_append (ss : List Segment) {ts : List Segment} (h : ts ≠ []) :
    dropBlankLast (ss ++ ts) = ss ++ dropBlankLast ts := by
  induction ss with
  | nil => rfl
  | cons s ss ih =>
    have hne : ss ++ ts ≠ [] := List.append_ne_nil_of_right_ne_nil ss h
    rw [List.cons_append, dropBlankLast_cons hne, ih, List.cons_append]

theorem dropBlankLast_shift (n : Nat) (ss : List Segment) :
    dropBlankLast (ss.map (shift n)) = (dropBlankLast ss).map (shift n) := by
  induction ss with
  | nil => rfl
  | cons s ss ih =>
    cases ss with
    | nil =>
      have hempty : (s.shift n).trim.isEmpty = s.trim.isEmpty := by
        rw [trim_shift]
        rfl
      rw [List.map_cons, List.map_nil, dropBlankLast_singleton, dropBlankLast_singleton, hempty]
      split <;> rfl
    | cons t ss =>
      have hne : (t :: ss).map (shift n) ≠ [] := by simp
      rw [List.map_cons, dropBlankLast_cons hne, ih, dropBlankLast_cons (List.cons_ne_nil t ss),
        List.map_cons]

theorem sources_append (cs ds : List Char) :
    sources (cs ++ ';' :: ds) =
      split ';' ⟨0, cs⟩ ++ (sources ds).map (shift (cs.length + 1)) := by
  have hne : (split ';' ⟨0, ds⟩).map (shift (cs.length + 1)) ≠ [] := by
    simpa using split_ne_nil ';' ds
  rw [sources, split_append, dropBlankLast_append _ hne, dropBlankLast_shift, sources]

theorem flatMap_dropBlankLast {α : Type} {f : Segment → List α}
    (hf : ∀ s : Segment, s.trim.isEmpty = true → f s = []) (ss : List Segment) :
    (dropBlankLast ss).flatMap f = ss.flatMap f := by
  induction ss with
  | nil => rfl
  | cons s ss ih =>
    cases ss with
    | nil =>
      rw [dropBlankLast_singleton]
      split
      · rename_i h
        simp [hf s h]
      · rfl
    | cons t ss =>
      rw [dropBlankLast_cons (List.cons_ne_nil t ss), List.flatMap_cons, ih,
        List.flatMap_cons (x := s)]

end Segment

theorem Source.ofSegment_of_blank (table : Table) {segment : Segment}
    (h : segment.trim.isEmpty = true) : (ofSegment table segment).2 = [] := by
  have hcomma : ',' ∉ segment.chars := by
    intro hm
    have hb := Segment.isBlank_of_isEmpty_trim h ',' hm
    exact absurd hb (by decide)
  have hsplit : Segment.splitFrom Segment.parens ',' segment.start 0 segment.start [] []
      (segment.chars ++ []) = _ := Segment.splitFrom_append hcomma segment.start 0 _ _ _ _
  have hstatements : segment.statements = [segment] := by
    rw [Segment.statements, Segment.splitOuter]
    simpa [Segment.splitFrom] using hsplit
  rw [ofSegment_eq, hstatements]
  simp [readFrom, Statement.ofSegment, h]

namespace Document

theorem read_sources (table : Table) (text : List Char) : (read table text).sources =
    (Segment.sources (stripComments text).chars).map fun s => (Source.ofSegment table s).1 := by
  simp only [read, List.map_map]
  rfl

theorem read_problems (table : Table) (text : List Char) : (read table text).problems =
    (stripComments text).problems ++
      (Segment.sources (stripComments text).chars).flatMap
        fun s => (Source.ofSegment table s).2 := by
  simp only [read, List.flatMap_map]

/-- Sources are read one by one. A text without an open comment is not changed by what follows
behind a semicolon, and what follows is read as if it stood alone, but for its places. The problems
of comments come first. -/
theorem read_append (table : Table) (a b : List Char)
    (h : ∀ p ∈ (stripComments a).problems, p.code ≠ .unexpectedEndOfComment) :
    (read table (a ++ ';' :: b)).sources = (read table (a ++ [';'])).sources ++
        (read table b).sources.map (Source.move (· + (a.length + 1))) ∧
      (read table (a ++ ';' :: b)).comments = (read table a).comments ++
        (read table b).comments.map (Comment.move (· + (a.length + 1))) ∧
      ∃ inA inB,
        (read table a).problems = (stripComments a).problems ++ inA ∧
        (read table (a ++ [';'])).problems = (stripComments a).problems ++ inA ∧
        (read table b).problems = (stripComments b).problems ++ inB ∧
        (read table (a ++ ';' :: b)).problems = (stripComments a).problems ++
          (stripComments b).problems.map (Problem.move (· + (a.length + 1))) ++ inA ++
          inB.map (Problem.move (· + (a.length + 1))) := by
  have hstrip := stripComments_append b h
  have hended := stripComments_append [] h
  have hlen := length_stripComments a
  have hnil : stripComments [] = ⟨[], [], []⟩ := rfl
  have hsources := Segment.sources_append (stripComments a).chars (stripComments b).chars
  have hpieces := Segment.sources_append (stripComments a).chars []
  have hempty : Segment.sources [] = [] := rfl
  rw [hempty, List.map_nil, List.append_nil] at hpieces
  rw [hlen] at hsources
  have hall : (Segment.sources (stripComments a).chars).flatMap
      (fun s => (Source.ofSegment table s).2) =
      (Segment.split ';' ⟨0, (stripComments a).chars⟩).flatMap
        fun s => (Source.ofSegment table s).2 :=
    Segment.flatMap_dropBlankLast (fun s hs => Source.ofSegment_of_blank table hs) _
  refine ⟨?_, ?_, (Segment.sources (stripComments a).chars).flatMap
      fun s => (Source.ofSegment table s).2, _, read_problems table a, ?_,
      read_problems table b, ?_⟩
  · rw [read_sources, read_sources, read_sources, hstrip, hended, hnil]
    simp only [hsources, hpieces, List.map_append, List.map_map]
    congr 1
    refine List.map_congr_left fun s _ => ?_
    simp only [Function.comp_apply, Source.ofSegment_shift, Prod.map]
  · exact congrArg Stripped.comments hstrip
  · rw [read_problems, hended, hnil]
    simp only [hpieces, List.map_nil, List.append_nil, hall]
  · rw [read_problems, hstrip]
    simp only [hsources, List.flatMap_append, List.flatMap_map, Source.ofSegment_shift, Prod.map,
      List.map_flatMap, List.append_assoc, hall]

theorem read_append_unclosed :
    let a := "/* one */ a: add(1 2".toList
    let b := " a: mul(2 3), b: a */;".toList
    let d := read Table.builtin (a ++ ';' :: b)
    (∀ p ∈ (stripComments a).problems, p.code ≠ .unexpectedEndOfComment) ∧
      d.sources.map (·.position) = [⟨10, 19⟩, ⟨22, 41⟩] ∧
      d.problems.map (·.code) =
        [.unexpectedToken, .expectedClosingParen, .illegalChar, .illegalChar] ∧
      d.sources = (read Table.builtin (a ++ [';'])).sources ++
        (read Table.builtin b).sources.map (Source.move (· + (a.length + 1))) := by
  intro a b d
  have hd : (∀ p ∈ (stripComments a).problems, p.code ≠ .unexpectedEndOfComment) ∧
      d.sources.map (·.position) = [⟨10, 19⟩, ⟨22, 41⟩] ∧
      d.problems.map (·.code) =
        [.unexpectedToken, .expectedClosingParen, .illegalChar, .illegalChar] := by
    decide +kernel
  exact ⟨hd.1, hd.2.1, hd.2.2, (read_append Table.builtin a b hd.1).1⟩

end Document

end Wordcode
