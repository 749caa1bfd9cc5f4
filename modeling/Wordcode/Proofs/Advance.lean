import Wordcode.Proofs.Extents

namespace Wordcode

namespace Scanner

/-- From the index `i` on, where `cs` stand, the reader goes on behind at least one character. It
has done what the tokens up to there do, if the open calls have their opcodes from the table. -/
def Steps (ctx : Context) (i : Nat) (cs : List Char) (r : Reading)
    (x : Checked (Nat × Reading)) : Prop :=
  ∃ skipped rest ts r', cs = skipped ++ rest ∧ skipped ≠ [] ∧ x = pure (i + skipped.length, r') ∧
    Token.scanFrom i .between [] cs =
      ts ++ Token.scanFrom (i + skipped.length) .between [] rest ∧
    (r.LookedUp ctx.table → r' = ts.foldl (Reading.step ctx) r)

namespace Ahead

open Token

variable {s : Scanner} {i : Nat} {c : Char} {cs : List Char} {entries : List Opcode} {ctx : Context}

theorem steps_word (htable : Table.ofEntries entries = .ok ctx.table) (h : s.Ahead i (c :: cs))
    (hc : isWordChar c = true) (r : Reading) : Steps ctx i (c :: cs) r (s.word ctx i r) := by
  obtain ⟨ds, rest, hsplit, hne, hds, hrest⟩ := exists_run_cons isWordChar hc cs
  rw [hsplit] at h ⊢
  obtain ⟨w, rest', j, hw, hread⟩ := h.exists_word htable hne hds hrest r
  obtain ⟨skipped, rfl, rfl⟩ := hw.split
  have hpos := List.length_pos_iff.mpr hne
  have hlast : i + ds.length - 1 + 1 = i + ds.length := by omega
  have hscan := hw.scan i ds.reverse (by simp [Segment.label]) hrest
  dsimp only at hread hscan
  rw [hlast] at hread hscan
  refine ⟨ds ++ skipped, rest', [.word w], _, by simp, by simp [hne], ?_, ?_, fun _ => rfl⟩
  · rw [hread, List.length_append, ← Nat.add_assoc]
    rfl
  · rw [scan_word i ⟨hne, hds⟩, hscan, List.length_append, ← Nat.add_assoc]
    rfl

theorem steps_angle (h : s.Ahead i ('<' :: cs)) (r : Reading) :
    Steps ctx i ('<' :: cs) r (s.step ctx i r) := by
  obtain ⟨ds, rest, rfl, hds, hrest⟩ := exists_run (· != '>') cs
  have hskip : s.skip (· != '>') i = pure (i + (ds.length + 1)) :=
    h.skip_eq (List.forall_mem_cons.mpr ⟨rfl, hds⟩) hrest
  have hstep : s.step ctx i r = (do
      let last ← Checked.sub s.limit 1
      let k ← s.skip (· != '>') i
      let k := if k < s.limit then k else last
      return (k + 1, r.step ctx (.operand ⟨i, k⟩))) := by
    rw [step, h.get, pure_bind]
    rfl
  have hscan : scanFrom i .between [] ('<' :: (ds ++ rest)) =
      scanFrom (i + 1 + ds.length) (.angle i) [] rest := scan_angle hds (i + 1) i rest
  rw [hstep, Checked.sub_eq_pure (Nat.zero_lt_of_lt h.lt), pure_bind, hskip, pure_bind, ← h.limit]
  cases rest with
  | nil =>
    refine ⟨'<' :: ds, [], [.operand ⟨i, i + ds.length⟩], _, by simp, by simp, ?_, ?_, fun _ => rfl⟩
    · rw [if_neg (by simp), List.append_nil, List.length_cons]
      rfl
    · rw [hscan, Nat.add_right_comm]
      rfl
  | cons c rest =>
    obtain rfl : c = '>' := by simpa using hrest c rfl
    refine ⟨'<' :: ds ++ ['>'], rest, [.operand ⟨i, i + (ds.length + 1)⟩], _, by simp, by simp, ?_,
      ?_, fun _ => rfl⟩
    · rw [if_pos (by simp)]
      simp [Nat.add_assoc]
    · have hangle : (Mode.angle i).step (i + 1 + ds.length) [] '>' =
          (.between, [.operand ⟨i, i + 1 + ds.length⟩]) := rfl
      rw [hscan, scanFrom, hangle]
      dsimp only
      rw [scanFrom_done]
      simp [Nat.add_assoc, Nat.add_comm 1]

theorem exists_skipGroup_open (h : s.Ahead i ('(' :: cs)) :
    ∃ skipped rest, '(' :: cs = skipped ++ rest ∧ skipped ≠ [] ∧
      s.skipGroup i 0 = pure (i + skipped.length) ∧
      scanFrom i .between [] ('(' :: cs) =
        .group i :: scanFrom (i + skipped.length) .between [] rest := by
  obtain ⟨skipped, rest, rfl, hskip, hscan⟩ := h.tail.exists_skipGroup Nat.one_pos
  have hfirst : first i [] '(' = (.group 1, [.group i]) := rfl
  refine ⟨'(' :: skipped, rest, rfl, by simp, ?_, ?_⟩
  · rw [skipGroup, if_pos h.lt, h.get, pure_bind, if_pos (by rfl), hskip, List.length_cons,
      Nat.add_assoc, Nat.add_comm 1]
  · rw [scanFrom, Mode.step, hfirst]
    dsimp only
    rw [scanFrom_done, hscan, List.length_cons, Nat.add_assoc, Nat.add_comm 1]
    rfl

end Ahead

variable {s : Scanner} {i : Nat} {c : Char} {cs : List Char} {entries : List Opcode} {ctx : Context}

theorem Steps.single {r r' : Reading} {x : Checked (Nat × Reading)} {done : List Token}
    (hfirst : Token.first i [] c = (.between, done)) (hx : x = pure (i + 1, r'))
    (hr : r.LookedUp ctx.table → r' = done.reverse.foldl (Reading.step ctx) r) :
    Steps ctx i (c :: cs) r x := by
  refine ⟨[c], cs, done.reverse, r', rfl, List.cons_ne_nil c [], hx, ?_, hr⟩
  rw [Token.scanFrom, Token.Mode.step, hfirst]
  exact Token.scanFrom_done _ _ _ _

namespace Ahead

open Token

theorem steps_step (htable : Table.ofEntries entries = .ok ctx.table) (h : s.Ahead i (c :: cs))
    (r : Reading) : Steps ctx i (c :: cs) r (s.step ctx i r) := by
  by_cases hangle : c = '<'
  · subst hangle
    exact h.steps_angle r
  rw [step, h.get, pure_bind]
  by_cases hblank : isBlank c = true
  · have hfirst : first i [] c = (.between, []) := if_pos hblank
    rw [if_pos hblank]
    exact .single hfirst rfl fun _ => rfl
  rw [if_neg hblank]
  by_cases hopen : (c == '(') = true
  · rw [if_pos hopen]
    obtain rfl := beq_iff_eq.mp hopen
    obtain ⟨skipped, rest, hsplit, hne, hskip, hscan⟩ := h.exists_skipGroup_open
    refine ⟨skipped, rest, [.group i], _, hsplit, hne, ?_, hscan, fun _ => rfl⟩
    rw [hskip, pure_bind]
    rfl
  rw [if_neg hopen]
  by_cases hclose : (c == ')') = true
  · rw [if_pos hclose]
    obtain rfl := beq_iff_eq.mp hclose
    obtain ⟨r', hr', heq⟩ := r.exists_settle ctx.table i
    exact .single rfl (by rw [hr', pure_bind]) heq
  rw [if_neg hclose, if_neg (by simpa using hangle)]
  by_cases hend : (c == '>') = true
  · rw [if_pos hend]
    obtain rfl := beq_iff_eq.mp hend
    exact .single rfl rfl fun _ => rfl
  rw [if_neg hend]
  by_cases hcomma : (c == ',') = true
  · rw [if_pos hcomma]
    obtain rfl := beq_iff_eq.mp hcomma
    exact .single rfl rfl fun _ => rfl
  rw [if_neg hcomma]
  by_cases hword : isWordChar c = true
  · rw [if_pos hword]
    exact h.steps_word htable hword r
  · rw [if_neg hword]
    have hfirst : first i [] c = (.between, [.illegal c i]) := by
      rw [first, if_neg hblank, if_neg hopen, if_neg hclose, if_neg (by simpa using hangle),
        if_neg hend, if_neg hcomma, if_neg hword]
    exact .single hfirst rfl fun _ => rfl

theorem exists_loop (htable : Table.ofEntries entries = .ok ctx.table) (h : s.Ahead i cs)
    (r : Reading) :
    ∃ r', s.loop ctx i r = pure r' ∧ (r.LookedUp ctx.table →
      r' = (scanFrom i .between [] cs).foldl (Reading.step ctx) r) := by
  induction hn : cs.length using Nat.strong_induction_on generalizing i cs r with
  | _ n ih =>
  cases cs with
  | nil => exact ⟨r, by rw [loop, if_neg h.not_lt], fun _ => rfl⟩
  | cons c cs =>
    obtain ⟨skipped, rest, ts, r₁, hsplit, hne, hstep, hscan, hr₁⟩ := h.steps_step htable r
    have hi := h.lt
    rw [hsplit] at h hn
    have hpos := List.length_pos_iff.mpr hne
    have hlt : rest.length < n := by
      rw [← hn, List.length_append]
      omega
    obtain ⟨r', hloop, hr'⟩ := ih _ hlt h.append r₁ rfl
    refine ⟨r', ?_, ?_⟩
    · rw [loop, if_pos hi, hstep, pure_bind]
      exact hloop
    · intro hr
      have hlooked : r₁.LookedUp ctx.table := by
        rw [hr₁ hr]
        exact Reading.foldl_step_induction (fun _ _ _ h => h.act) hr ts
      rw [hr' hlooked, hscan, List.foldl_append, ← hr₁ hr]

theorem read_eq (htable : Table.ofEntries entries = .ok ctx.table) (h : s.Ahead i cs) :
    s.read ctx i = pure (Reading.read ctx ⟨i, cs⟩) := by
  obtain ⟨r, hloop, hr⟩ := h.exists_loop htable {}
  have hnone : Reading.LookedUp ctx.table {} := fun f hf => absurd hf List.not_mem_nil
  rw [Scanner.read, hloop, pure_bind, hr hnone, ← h.limit]
  rfl

end Ahead

variable {text : Array Char} {table : Table}

theorem statement_eq (htable : Table.ofEntries entries = .ok table) {segment : Segment}
    (h : Stands text.toList segment.start segment.chars) (scope : Scope) :
    statement text table scope segment.span = pure (Statement.ofSegment table scope segment) := by
  have htrim := Segment.stands_trim h
  rw [statement, Span.trim_eq h, pure_bind, Segment.isEmpty_span, Statement.ofSegment]
  dsimp only
  by_cases hempty : segment.trim.isEmpty = true
  · rw [if_pos hempty, if_pos hempty]
  rw [if_neg hempty, if_neg hempty, Span.sides_eq htrim, pure_bind]
  cases hs : segment.trim.sides with
  | error problem => rfl
  | ok sides =>
    obtain ⟨left, right⟩ := sides
    obtain ⟨hleft, hright, -⟩ := Segment.stands_sides htrim hs
    have hread : ∀ pending, (right.span.scanner text).read ⟨table, scope, pending⟩ right.start =
        pure (Reading.read ⟨table, scope, pending⟩ right) :=
      fun _ => (Segment.ahead_span hright).read_eq htable
    simp only [Except.map, Segment.start_span, Span.labels_eq hleft, hread, pure_bind]
    rfl

theorem progress_eq (htable : Table.ofEntries entries = .ok table) {segment : Segment}
    (h : Stands text.toList segment.start segment.chars) (p : Source.Progress) :
    progress text table p segment.span = pure (p.step table segment) := by
  rw [progress, statement_eq htable h, pure_bind, Source.Progress.step]
  rcases Statement.ofSegment table p.scope segment with ⟨_ | statement, problems⟩
  all_goals rfl

theorem foldlM_progress_eq (htable : Table.ofEntries entries = .ok table)
    {segments : List Segment} (h : ∀ s ∈ segments, Stands text.toList s.start s.chars)
    (p : Source.Progress) :
    (segments.map (·.span)).foldlM (progress text table) p =
      pure (segments.foldl (Source.Progress.step table) p) := by
  induction segments generalizing p with
  | nil => rfl
  | cons s segments ih =>
    obtain ⟨hs, hrest⟩ := List.forall_mem_cons.mp h
    rw [List.map_cons, List.foldlM_cons, progress_eq htable hs, pure_bind, ih hrest,
      List.foldl_cons]

theorem source_eq (htable : Table.ofEntries entries = .ok table) {segment : Segment}
    (h : Stands text.toList segment.start segment.chars) :
    source text table segment.span = pure (Source.ofSegment table segment) := by
  have hstatements : ∀ s ∈ segment.statements, Stands text.toList s.start s.chars :=
    fun s hs => ((Segment.row_splitOuter h).of_mem hs).1
  rw [source, Span.statements_eq h, pure_bind, foldlM_progress_eq htable hstatements, pure_bind,
    Span.trim_eq h, pure_bind, Segment.position_span]
  rfl

theorem mapM_source_eq (htable : Table.ofEntries entries = .ok table) {segments : List Segment}
    (h : ∀ s ∈ segments, Stands text.toList s.start s.chars) :
    (segments.map (·.span)).mapM (source text table) =
      pure (segments.map (Source.ofSegment table)) := by
  induction segments with
  | nil => rfl
  | cons s segments ih =>
    obtain ⟨hs, hrest⟩ := List.forall_mem_cons.mp h
    rw [List.map_cons, List.mapM_cons, source_eq htable hs, pure_bind, ih hrest, pure_bind,
      List.map_cons]

theorem document_eq (htable : Table.ofEntries entries = .ok table) (text : Array Char) :
    document text table = pure (Document.read table text.toList) := by
  generalize hstripped : Wordcode.stripComments text.toList = stripped
  have hsources : ∀ s ∈ Segment.sources stripped.chars.toArray.toList,
      Stands stripped.chars.toArray.toList s.start s.chars :=
    fun s hs => (Segment.mem_sources_iff.mp hs).1.stands
  rw [document, stripComments_eq, hstripped, pure_bind]
  dsimp only
  rw [Span.sources_eq, pure_bind, mapM_source_eq htable hsources, pure_bind, Document.read,
    hstripped]

def Advances {α : Type} (s : Scanner) (i : Nat) (index : α → Nat) (x : Checked α) : Prop :=
  ∃ a, x = pure a ∧ i < index a ∧ index a ≤ s.limit

/-- No part of the reader faults or leaves the text before the limit, whatever has been read before,
and each gets on. -/
structure Safe (s : Scanner) (ctx : Context) : Prop where
  group : ∀ i, i < s.limit → s.text[i]? = some '(' → s.Advances i id (s.skipGroup i 0)
  operand : ∀ start r, start < s.limit → s.Advances start Prod.fst (s.operand start r)
  openCall : ∀ (l : Label) found r, l.position.last < s.limit →
    s.Advances l.position.last Prod.fst (s.openCall l found r)
  word : ∀ i c r, i < s.limit → s.text[i]? = some c → Token.isWordChar c = true →
    s.Advances i Prod.fst (s.word ctx i r)
  step : ∀ i r, i < s.limit → s.Advances i Prod.fst (s.step ctx i r)
  loop : ∀ i r, i ≤ s.limit → ∃ r', s.loop ctx i r = pure r'
  read : ∀ start, start ≤ s.limit → s.read ctx start =
    pure (Reading.read ctx ⟨start, (s.text.extract start s.limit).toList⟩)

theorem exists_ahead_of_getElem? (hi : i < s.limit) (hl : s.limit ≤ s.text.size)
    (hc : s.text[i]? = some c) : ∃ cs, s.Ahead i (c :: cs) := by
  have h := exists_ahead (Nat.le_of_lt hi) hl
  cases hcs : (s.text.extract i s.limit).toList with
  | nil =>
    rw [hcs] at h
    exact absurd hi h.not_lt
  | cons d cs =>
    rw [hcs] at h
    have hd := (Stands.cons_iff.mp h.stands).1
    rw [Array.getElem?_toList, hc] at hd
    cases hd
    exact ⟨cs, h⟩

theorem exists_ahead_cons (hi : i < s.limit) (hl : s.limit ≤ s.text.size) :
    ∃ c cs, s.Ahead i (c :: cs) :=
  ⟨_, exists_ahead_of_getElem? hi hl (Array.getElem?_eq_getElem (Nat.lt_of_lt_of_le hi hl))⟩

theorem Ahead.advances {α : Type} {skipped rest : List Char} {x : Checked α} {a : α}
    {index : α → Nat} (h : s.Ahead i (skipped ++ rest)) (hne : skipped ≠ []) (hx : x = pure a)
    (ha : index a = i + skipped.length) : s.Advances i index x := by
  have hpos := List.length_pos_iff.mpr hne
  have hlimit := h.limit
  rw [List.length_append] at hlimit
  exact ⟨a, hx, by omega, by omega⟩

theorem Ahead.advances_of_steps {r : Reading} {x : Checked (Nat × Reading)} (h : s.Ahead i cs)
    (hx : Steps ctx i cs r x) : s.Advances i Prod.fst x := by
  obtain ⟨skipped, rest, ts, r', rfl, hne, hx, -⟩ := hx
  exact h.advances hne hx rfl

theorem safe (htable : Table.ofEntries entries = .ok ctx.table) (hl : s.limit ≤ s.text.size) :
    s.Safe ctx where
  group i hi hc := by
    obtain ⟨cs, h⟩ := exists_ahead_of_getElem? hi hl hc
    obtain ⟨skipped, rest, hsplit, hne, hskip, -⟩ := h.exists_skipGroup_open
    rw [hsplit] at h
    exact h.advances hne hskip rfl
  operand start r hi := by
    obtain ⟨c, cs, h⟩ := exists_ahead_cons hi hl
    obtain ⟨t, rest, -, ht, hread⟩ := h.tail.exists_operandFrom start [] true r
    obtain ⟨skipped, rfl, hstop⟩ := ht.split
    refine Ahead.advances (show s.Ahead start (c :: skipped ++ rest) from h) (by simp) hread ?_
    rw [List.length_cons, ← Nat.add_assoc, Nat.add_right_comm]
    exact hstop
  openCall l found r hi := by
    obtain ⟨c, cs, h⟩ := exists_ahead_cons hi hl
    obtain ⟨w, rest, j, hw, hread⟩ := h.tail.exists_openCall found r
    obtain ⟨skipped, rfl, hj⟩ := hw.split
    refine Ahead.advances (show s.Ahead l.position.last (c :: skipped ++ rest) from h) (by simp)
      hread ?_
    rw [List.length_cons, ← Nat.add_assoc, Nat.add_right_comm]
    exact hj
  word i c r hi hc hword := by
    obtain ⟨cs, h⟩ := exists_ahead_of_getElem? hi hl hc
    exact h.advances_of_steps (h.steps_word htable hword r)
  step i r hi := by
    obtain ⟨c, cs, h⟩ := exists_ahead_cons hi hl
    exact h.advances_of_steps (h.steps_step htable r)
  loop i r hi := by
    obtain ⟨r', hloop, -⟩ := (exists_ahead hi hl).exists_loop htable r
    exact ⟨r', hloop⟩
  read start hi := (exists_ahead hi hl).read_eq htable

/-- Wherever a right side is read, and whatever is open there, the reader gets on within the limit:
no character or opcode is looked up where there is none, no index gets below zero, and the indices
of refused items are those of items. Hence every text is read to its end. -/
theorem reader_advances (htable : Table.ofEntries entries = .ok ctx.table) :
    (∀ s : Scanner, s.limit ≤ s.text.size → s.Safe ctx) ∧
    (∀ (op : Opcode) (args : List Nat) (params : Nat) (indices : List Nat),
      op.packOperand args params = .error indices → ∀ k ∈ indices, k < op.operand.length) ∧
    (∀ (key : String) (number : UInt16), ctx.table.index.get? key = some number →
      number.toNat < ctx.table.entries.size) ∧
    (∀ word, ctx.table.find word = pure (ctx.table.lookup word)) ∧
    ∀ text, document text ctx.table = pure (Document.read ctx.table text.toList) :=
  ⟨fun _ hl => safe htable hl,
    fun _ _ _ _ h => (Opcode.packOperand_eq_error h).2,
    fun _ _ h => Table.index_lt htable h,
    Table.find_eq htable,
    document_eq htable⟩

theorem reader_advances_builtin :
    ∃ (ctx : Context) (s : Scanner), Table.ofEntries Builtin.opcodes = .ok ctx.table ∧
      s.text = "a: add<1 (".toList.toArray ∧ s.limit = 10 ∧
      s.Advances 9 id (s.skipGroup 9 0) ∧ (∀ r, s.Advances 6 Prod.fst (s.operand 6 r)) ∧
      (∀ r, s.Advances 5 Prod.fst (s.openCall ⟨"add", ⟨3, 5⟩⟩ none r)) ∧
      (∀ r, s.Advances 3 Prod.fst (s.word ctx 3 r)) ∧
      (∀ r, s.Advances 2 Prod.fst (s.step ctx 2 r)) ∧ (∀ r, ∃ r', s.loop ctx 10 r = pure r') ∧
      s.read ctx 2 = pure (Reading.read ctx ⟨2, " add<1 (".toList⟩) ∧
      (∃ op ∈ Builtin.opcodes, op.packOperand [] 1 = .error [0] ∧ 0 < op.operand.length) ∧
      ctx.table.index.get? "add" = some 1 ∧ 1 < ctx.table.entries.size ∧
      document s.text ctx.table = pure (Document.read ctx.table s.text.toList) := by
  let ctx : Context := ⟨Table.builtin, {}, []⟩
  let s : Scanner := ⟨"a: add<1 (".toList.toArray, 10⟩
  have htable : Table.ofEntries Builtin.opcodes = .ok ctx.table := Table.ofEntries_builtin
  obtain ⟨hsafe, hindices, hindex, -, hdocument⟩ := reader_advances htable
  have hs : s.Safe ctx := hsafe s (by decide)
  have hadd : ctx.table.index.get? "add" = some 1 := by decide +kernel
  have hlength : 1 < Builtin.opcodes.length := by decide +kernel
  have hpack : Builtin.opcodes[1].packOperand [] 1 = .error [0] := by rfl
  refine ⟨ctx, s, htable, rfl, rfl, hs.group 9 (by decide) rfl, fun r => hs.operand 6 r (by decide),
    fun r => hs.openCall _ none r (by decide), fun r => hs.word 3 'a' r (by decide) rfl rfl,
    fun r => hs.step 2 r (by decide), fun r => hs.loop 10 r (by decide), hs.read 2 (by decide),
    ⟨_, List.getElem_mem hlength, hpack, hindices _ _ _ _ hpack 0 (by simp)⟩, hadd,
    hindex _ _ hadd, hdocument s.text⟩

end Scanner

end Wordcode
