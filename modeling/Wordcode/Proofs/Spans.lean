import Wordcode.Proofs.Indices

namespace Wordcode

theorem trimEnd_blank {c : Char} (h : isBlank c = true) (cs : List Char) :
    trimEnd (cs ++ [c]) = trimEnd cs := by
  rw [trimEnd, trimEnd, List.reverse_append, List.reverse_singleton, List.singleton_append,
    List.dropWhile_cons_of_pos h]

namespace Segment

def span (s : Segment) : Span :=
  ⟨s.start, s.stop⟩

variable {text : Array Char} {s : Segment}

@[simp] theorem start_span (s : Segment) : s.span.start = s.start :=
  rfl

@[simp] theorem stop_span (s : Segment) : s.span.stop = s.stop :=
  rfl

theorem position_span (s : Segment) : s.span.position = s.position :=
  rfl

theorem isEmpty_span (s : Segment) : s.span.isEmpty = s.isEmpty := by
  have hstop : s.span.stop = s.span.start + s.chars.length := rfl
  rw [Bool.eq_iff_iff, Span.isEmpty, decide_eq_true_iff, isEmpty, List.isEmpty_iff,
    ← List.length_eq_zero_iff]
  omega

theorem ahead_span (h : Stands text.toList s.start s.chars) :
    (s.span.scanner text).Ahead s.start s.chars :=
  ⟨h, rfl⟩

end Segment

namespace Scanner

variable {s : Scanner} {i : Nat} {cs : List Char}

theorem skipBack_eq {start : Nat} (h : Stands s.text.toList start cs) :
    s.skipBack start (start + cs.length) = pure (start + (trimEnd cs).length) := by
  induction cs using List.reverseRecOn with
  | nil =>
    rw [skipBack, if_neg (by simp)]
    rfl
  | append_singleton ds c ih =>
    obtain ⟨hd, hc⟩ := Stands.append_iff.mp h
    rw [Stands.singleton_iff, Array.getElem?_toList] at hc
    have hget : s.get (start + ds.length) = pure c := Checked.get_eq_pure hc
    rw [skipBack, List.length_append, List.length_singleton, ← Nat.add_assoc,
      if_pos (by omega), Checked.sub_eq_pure (by omega), pure_bind, Nat.add_sub_cancel, hget,
      pure_bind]
    cases hb : isBlank c with
    | false =>
      rw [if_neg (by simp), trimEnd_of_solid hb, List.length_append]
      rfl
    | true => rw [if_pos rfl, ih hd, trimEnd_blank hb]

/-- The marks at depth zero are where a text is cut into pieces. The first piece goes on from
`start` with the characters of `piece` before the index `i`. -/
theorem Ahead.marksFrom_eq (h : s.Ahead i cs) (nest : Nat → Char → Nat) (mark : Char) (depth : Nat)
    (found : List Nat) (start : Nat) (piece : List Char) (hpiece : start + piece.length = i) :
    ∃ marks, s.marksFrom nest mark i depth found = pure (found.reverse ++ marks) ∧
      (Segment.splitFrom nest mark i depth start piece [] cs).map (·.span) =
        Span.cut ⟨start, s.limit⟩ marks := by
  induction cs generalizing i depth found start piece with
  | nil =>
    refine ⟨[], ?_, ?_⟩
    · rw [marksFrom, if_neg h.not_lt, List.append_nil]
    · have hlimit := h.limit
      simp only [Segment.splitFrom, List.reverse_singleton, List.map_singleton, Segment.span,
        Segment.stop, List.length_reverse, hpiece, Span.cut]
      rw [← hlimit]
      rfl
  | cons c cs ih =>
    rw [marksFrom, if_pos h.lt, h.get, pure_bind, Segment.splitFrom]
    split
    · obtain ⟨marks, hmarks, hcut⟩ := ih h.tail depth (i :: found) (i + 1) [] rfl
      refine ⟨i :: marks, ?_, ?_⟩
      · rw [hmarks, List.reverse_cons, List.append_assoc]
        rfl
      · rw [Segment.splitFrom_done, List.map_append, hcut, Span.cut]
        simp [Segment.span, Segment.stop, hpiece]
    · exact ih h.tail (nest depth c) found start (c :: piece) (by rw [List.length_cons]; omega)

end Scanner

namespace Span

variable {text : Array Char} {s : Segment}

theorem trim_eq (h : Stands text.toList s.start s.chars) :
    s.span.trim text = pure s.trim.span := by
  have hahead := Segment.ahead_span h
  rw [← List.takeWhile_append_dropWhile (p := isBlank) (l := s.chars)] at hahead
  have hskip := hahead.skip_eq (p := isBlank) (fun _ => List.mem_takeWhile_imp)
    fun _ => Scanner.head?_dropWhile
  have hstop : s.start + (s.chars.takeWhile isBlank).length + (s.chars.dropWhile isBlank).length =
      s.stop := hahead.append.limit
  have hback := Scanner.skipBack_eq hahead.append.stands
  rw [hstop] at hback
  rw [trim, Segment.start_span, hskip, pure_bind, Segment.stop_span, hback]
  rfl

theorem exists_marks (h : Stands text.toList s.start s.chars) (mark : Char) :
    ∃ marks, s.span.marks text mark = pure marks ∧
      (s.splitOuter mark).map (·.span) = s.span.cut marks := by
  obtain ⟨marks, hmarks, hcut⟩ :=
    (Segment.ahead_span h).marksFrom_eq Segment.parens mark 0 [] s.start [] rfl
  exact ⟨marks, hmarks, hcut⟩

theorem statements_eq (h : Stands text.toList s.start s.chars) :
    s.span.statements text = pure (s.statements.map (·.span)) := by
  obtain ⟨marks, hmarks, hcut⟩ := exists_marks h ','
  rw [statements, hmarks, pure_bind, ← hcut]
  rfl

theorem sides_eq (h : Stands text.toList s.start s.chars) :
    s.span.sides text = pure (s.sides.map fun (left, right) => (left.span, right.span)) := by
  obtain ⟨marks, hmarks, hcut⟩ := exists_marks h ':'
  rw [sides, hmarks, pure_bind, Segment.sides]
  rcases marks with _ | ⟨colon, _ | ⟨second, marks⟩⟩
  · obtain ⟨piece, hsplit, -⟩ := List.map_eq_singleton_iff.mp hcut
    rw [hsplit]
    rfl
  · obtain ⟨left, rest, hsplit, hleft, hrest⟩ := List.map_eq_cons_iff.mp hcut
    obtain ⟨right, rfl, hright⟩ := List.map_eq_singleton_iff.mp hrest
    rw [hsplit]
    simp only [Except.map, hleft, hright]
  · obtain ⟨first, rest, hsplit, -, hrest⟩ := List.map_eq_cons_iff.mp hcut
    obtain ⟨piece, rest', rfl, -, hrest'⟩ := List.map_eq_cons_iff.mp hrest
    have hne : rest' ≠ [] := by
      rintro rfl
      cases marks <;> cases hrest'
    obtain ⟨third, rest'', rfl⟩ := List.exists_cons_of_ne_nil hne
    rw [hsplit]
    rfl

theorem sources_eq (text : Array Char) :
    sources text = pure ((Segment.sources text.toList).map (·.span)) := by
  have hself := Stands.self text.toList
  have hwhole : (⟨0, text.size⟩ : Span) = Segment.span ⟨0, text.toList⟩ := by
    simp [Segment.span, Segment.stop]
  have hahead : ((Segment.span ⟨0, text.toList⟩).scanner text).Ahead 0 text.toList :=
    Segment.ahead_span hself
  obtain ⟨marks, hmarks, hcut⟩ :=
    hahead.marksFrom_eq (fun depth _ => depth) ';' 0 [] 0 [] rfl
  obtain ⟨init, last, hsplit, -, -⟩ := Segment.exists_sources text.toList
  have hstands : Stands text.toList last.start last.chars := by
    have hmem : last ∈ Segment.split ';' ⟨0, text.toList⟩ := by
      rw [hsplit]
      simp
    exact ((Segment.row_split hself).of_mem hmem).1
  have hpieces : (Segment.span ⟨0, text.toList⟩).cut marks =
      init.map (·.span) ++ [last.span] := by
    rw [← List.map_singleton, ← List.map_append, ← hsplit]
    exact hcut.symm
  simp only [sources, hwhole]
  rw [Segment.sources, hsplit, Segment.dropBlankLast_concat, hmarks]
  simp only [pure_bind, List.reverse_nil, List.nil_append, hpieces, List.getLast?_concat,
    List.dropLast_concat, trim_eq hstands, Segment.isEmpty_span]
  split
  · rfl
  · simp

end Span

namespace Segment

theorem labelsFrom_run {name rest : List Char} (hne : name ≠ [])
    (hrest : ∀ c, rest.head? = some c → isBlank c = true) (i : Nat) (done : List Label) :
    labelsFrom i name done rest =
      labelsFrom i [] (label (i - name.length) name :: done) rest := by
  cases rest with
  | nil => simp [labelsFrom, hne]
  | cons c rest => simp [labelsFrom, hne, hrest c rfl]

end Segment

namespace Scanner

variable {s : Scanner} {i : Nat} {cs : List Char}

theorem Ahead.labelsFrom_eq (h : s.Ahead i cs) (done : List Label) :
    s.labelsFrom i done = pure (Segment.labelsFrom i [] done cs) := by
  induction hn : cs.length using Nat.strong_induction_on generalizing i cs done with
  | _ n ih =>
  cases cs with
  | nil =>
    rw [labelsFrom, if_neg h.not_lt]
    rfl
  | cons c cs =>
    rw [labelsFrom, if_pos h.lt, h.get, pure_bind]
    cases hb : isBlank c with
    | true =>
      rw [if_pos rfl, ih cs.length (by simp at hn; omega) h.tail done rfl, Segment.labelsFrom,
        if_pos hb]
      rfl
    | false =>
      have hc : (!isBlank c) = true := by simp [hb]
      obtain ⟨ds, rest, hcs, hne, hds, hrest⟩ := exists_run_cons (!isBlank ·) hc cs
      have hsolid : ∀ d ∈ ds, isBlank d = false := fun d hd => by simpa using hds d hd
      have hblank : ∀ d, rest.head? = some d → isBlank d = true :=
        fun d hd => by simpa using hrest d hd
      have hpos := List.length_pos_iff.mpr hne
      rw [hcs] at h hn
      rw [List.length_append] at hn
      rw [if_neg (by simp), h.run_eq hne hds hrest, pure_bind]
      dsimp only
      have hname : ds.reverse ≠ [] := by simpa using hne
      rw [ih rest.length (by omega) h.append _ rfl, hcs, Segment.labelsFrom_append hsolid,
        List.append_nil, Segment.labelsFrom_run hname hblank]
      simp [Segment.label]

end Scanner

theorem Span.labels_eq {text : Array Char} {s : Segment}
    (h : Stands text.toList s.start s.chars) : s.span.labels text = pure s.labels :=
  (Segment.ahead_span h).labelsFrom_eq []

theorem toList_blankOut {text : Array Char} {before cs after : List Char}
    (h : text.toList = before ++ cs ++ after) :
    (blankOut before.length cs.length text).toList =
      before ++ List.replicate cs.length ' ' ++ after := by
  induction cs generalizing before text with
  | nil => exact h
  | cons c cs ih =>
    have hset : (text.setIfInBounds before.length ' ').toList = before ++ [' '] ++ cs ++ after := by
      rw [Array.toList_setIfInBounds, h]
      simp
    have hrest := ih hset
    rw [List.length_append, List.length_singleton] at hrest
    rw [List.length_cons, blankOut, hrest, List.replicate_succ]
    simp

namespace Scanner

variable {s : Scanner} {i : Nat} {cs body rest : List Char}

theorem findEnd_eq_some (h : Stands s.text.toList i (body ++ '*' :: '/' :: rest))
    (hl : i + body.length < s.limit) (hno : ¬ ['*', '/'] <:+: body ++ ['*']) :
    s.findEnd i = pure (some (i + body.length)) := by
  induction body generalizing i with
  | nil =>
    have hnext := (Stands.cons_iff.mp h).2
    rw [List.length_nil, Nat.add_zero] at hl ⊢
    rw [findEnd, if_pos hl, get_eq_of_stands h, pure_bind, get_eq_of_stands hnext, pure_bind]
    rfl
  | cons c body ih =>
    rw [List.cons_append, List.infix_cons_iff, not_or] at hno
    rw [List.length_cons] at hl
    have hnext := (Stands.cons_iff.mp h).2
    obtain ⟨d, ds, hd⟩ : ∃ d ds, body ++ ['*'] = d :: ds :=
      List.exists_cons_of_ne_nil (by simp)
    have hget : s.get (i + 1) = pure d := by
      rw [List.append_eq, List.append_cons, hd] at hnext
      exact get_eq_of_stands hnext
    have hpair : (c == '*' && d == '/') = false := by
      rw [Bool.and_eq_false_imp, beq_iff_eq, beq_eq_false_iff_ne]
      rintro rfl rfl
      exact hno.1 (by rw [hd]; simp)
    rw [findEnd, if_pos (by omega), get_eq_of_stands h, pure_bind, hget, pure_bind, hpair,
      if_neg (by simp), ih hnext (by omega) hno.2, List.length_cons]
    congr 2
    omega

theorem findEnd_eq_none (h : Stands s.text.toList i cs) (hl : s.limit = i + cs.length - 1)
    (hno : ¬ ['*', '/'] <:+: cs) : s.findEnd i = pure none := by
  induction cs generalizing i with
  | nil =>
    rw [findEnd, if_neg]
    simp at hl
    omega
  | cons c cs ih =>
    rw [List.infix_cons_iff, not_or] at hno
    have hnext := (Stands.cons_iff.mp h).2
    cases cs with
    | nil =>
      rw [findEnd, if_neg]
      simp at hl
      omega
    | cons d cs =>
      have hpair : (c == '*' && d == '/') = false := by
        rw [Bool.and_eq_false_imp, beq_iff_eq, beq_eq_false_iff_ne]
        rintro rfl rfl
        exact hno.1 (by simp)
      simp only [List.length_cons] at hl
      rw [findEnd, if_pos (by omega), get_eq_of_stands h, pure_bind, get_eq_of_stands hnext,
        pure_bind, hpair, if_neg (by simp)]
      exact ih hnext (by simp only [List.length_cons]; omega) hno.2

theorem commentStop_eq {text : Array Char}
    (h : Stands text.toList i ('/' :: '*' :: (body ++ '*' :: '/' :: rest)))
    (hno : ¬ ['*', '/'] <:+: body ++ ['*']) :
    commentStop text i = pure (i + body.length + 4, []) := by
  have hbody := (Stands.pair_iff.mp h).2
  have hle : i + 2 + (body.length + 2) ≤ text.size := by
    have := hbody.le
    simp only [List.length_append, List.length_cons, Array.length_toList] at this
    omega
  have hfind := findEnd_eq_some (s := ⟨text, text.size - 1⟩) hbody (by simp only; omega) hno
  have hstop : i + 2 + body.length + 2 = i + body.length + 4 := by omega
  rw [commentStop, hfind, pure_bind, ← hstop]

theorem commentStop_eq_unterminated {text : Array Char}
    (h : Stands text.toList i ('/' :: '*' :: body)) (hi : i + body.length + 2 = text.size)
    (hno : ¬ ['*', '/'] <:+: body) :
    commentStop text i = pure (text.size, [unterminated i text.size]) := by
  have hbody := (Stands.pair_iff.mp h).2
  have hfind := findEnd_eq_none (s := ⟨text, text.size - 1⟩) hbody (by simp only; omega) hno
  rw [commentStop, hfind, pure_bind, Checked.sub_eq_pure (by omega), pure_bind,
    Nat.sub_add_cancel (by omega)]

theorem Ahead.stripFrom_comment {before : List Char} {missing : List Problem}
    (h : s.Ahead before.length ('/' :: '*' :: (body ++ rest)))
    (ht : s.text.toList = before ++ '/' :: '*' :: (body ++ rest))
    (hstop : commentStop s.text before.length = pure (before.length + (body.length + 2), missing))
    (comments : List Comment) (problems : List Problem) :
    s.stripFrom before.length comments problems =
      Scanner.stripFrom
        ⟨(before ++ List.replicate (body.length + 2) ' ' ++ rest).toArray, s.limit⟩
        (before.length + (body.length + 2))
        (⟨String.ofList ('/' :: '*' :: body), ⟨before.length, before.length + body.length + 1⟩⟩ ::
          comments)
        (missing ++ problems) := by
  have hslice : Checked.slice s.text before.length (before.length + (body.length + 2)) =
      pure ('/' :: '*' :: body) :=
    slice (show s.Ahead before.length ('/' :: '*' :: body ++ rest) from h)
  have hblank : blankOut before.length (body.length + 2) s.text =
      (before ++ List.replicate (body.length + 2) ' ' ++ rest).toArray := by
    have hsplit : s.text.toList = before ++ '/' :: '*' :: body ++ rest := by simpa using ht
    exact Array.toList_inj.mp (toList_blankOut hsplit)
  rw [stripFrom, if_pos h.lt, h.get, pure_bind, h.tail.stands_eq, pure_bind, if_neg (by simp),
    h.tail.stands_eq, pure_bind, if_pos (by simp), hstop, pure_bind]
  dsimp only
  rw [hslice, pure_bind, Checked.sub_eq_pure (by omega), pure_bind, Nat.add_sub_cancel_left, hblank]
  rfl

theorem stripFrom_eq {st : Stripped} (h : Strips i cs st) (before : List Char)
    (hi : before.length = i) (ht : s.text.toList = before ++ cs) (hl : s.limit = s.text.size)
    (comments : List Comment) (problems : List Problem) :
    s.stripFrom i comments problems =
      pure ⟨before ++ st.chars, comments.reverse ++ st.comments,
        problems.reverse ++ st.problems⟩ := by
  have hahead : s.Ahead i cs := by
    refine ⟨⟨before, [], hi, by simpa using ht⟩, ?_⟩
    rw [hl, ← Array.length_toList, ht, List.length_append, hi]
  induction h generalizing s before comments problems with
  | nil =>
    rw [stripFrom, if_neg hahead.not_lt, ht]
    simp
  | @plain i c rest st hplain hrest ih =>
    have hstray : (c == '*' && rest.head? == some '/') = false := by
      rw [Bool.and_eq_false_imp, beq_iff_eq, beq_eq_false_iff_ne]
      exact fun hc hd => hplain '/' hd (.inr ⟨hc, rfl⟩)
    have hstart : (c == '/' && rest.head? == some '*') = false := by
      rw [Bool.and_eq_false_imp, beq_iff_eq, beq_eq_false_iff_ne]
      exact fun hc hd => hplain '*' hd (.inl ⟨hc, rfl⟩)
    rw [stripFrom, if_pos hahead.lt, hahead.get, pure_bind, hahead.tail.stands_eq, pure_bind,
      hstray, if_neg (by simp), hahead.tail.stands_eq, pure_bind, hstart, if_neg (by simp),
      ih (before ++ [c]) (by simp [hi]) (by simp [ht]) hl comments problems hahead.tail]
    simp [Stripped.push]
  | @stray i rest st hrest ih =>
    rw [stripFrom, if_pos hahead.lt, hahead.get, pure_bind, hahead.tail.stands_eq, pure_bind,
      if_pos (by simp),
      ih (before ++ ['*', '/']) (by simp [hi]) (by simp [ht]) hl comments _
        hahead.tail.tail]
    simp [Stripped.push, Stripped.problem]
  | @comment i body rest st hno hrest ih =>
    have hstop := commentStop_eq hahead.stands hno
    have hsplit : body ++ '*' :: '/' :: rest = body ++ ['*', '/'] ++ rest := by simp
    have hlength : (body ++ ['*', '/']).length + 2 = body.length + 4 := by simp
    subst hi
    rw [hsplit] at hahead ht
    rw [hahead.stripFrom_comment ht (by rw [hlength, hstop, Nat.add_assoc]) comments problems,
      hlength, ← Nat.add_assoc]
    have hbefore : (before ++ List.replicate (body.length + 4) ' ').length =
        before.length + body.length + 4 := by
      rw [List.length_append, List.length_replicate, Nat.add_assoc]
    have hlimit : s.limit = before.length + body.length + 4 + rest.length := by
      rw [← hahead.limit, ← List.length_append]
      simp
      omega
    have hlast : before.length + (body ++ ['*', '/']).length + 1 =
        before.length + body.length + 3 := by
      simp
      omega
    rw [hlast, ih _ hbefore rfl (by rw [hlimit]; simp; omega)]
    · simp
    · refine ⟨⟨_, [], hbefore, by simp⟩, hlimit.symm⟩
  | @unterminated i body hno =>
    subst hi
    have hsize : before.length + body.length + 2 = s.text.size := by
      rw [← hl, ← hahead.limit]
      rfl
    have hstop := commentStop_eq_unterminated hahead.stands hsize hno
    rw [← hsize] at hstop
    rw [← List.append_nil body] at hahead ht
    rw [hahead.stripFrom_comment ht hstop comments problems, stripFrom, if_neg]
    · simp
    · simp only
      omega

theorem stripComments_eq (text : Array Char) :
    stripComments text = pure (Wordcode.stripComments text.toList) := by
  rw [stripComments, stripFrom_eq (strips_stripComments text.toList) [] rfl rfl rfl]
  rfl

end Scanner

end Wordcode
