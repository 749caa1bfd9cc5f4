import Wordcode.Proofs.Completeness

namespace Wordcode

/-- The names that later statements can refer to. -/
def bindable (names : List String) : List String :=
  names.filter fun name => name != "_" && isName name

theorem Scope.bound_eq_bindable (labels : List Label) :
    Scope.bound labels = bindable (labels.map (·.name)) := by
  rw [Scope.bound, bindable, List.filter_map]
  rfl

namespace Clause

def chars (c : Clause) : List Char :=
  spaced (c.names.map String.toList) ++ ':' :: ' ' :: Term.spell c.terms

theorem toList_text (c : Clause) : c.text.toList = c.chars := by
  rw [text, String.toList_append, String.toList_append, toList_intercalate_blank,
    Term.toList_intercalate_texts, List.append_assoc]
  rfl

/-- A statement that is read back as it is behind statements with the names `before`. -/
structure Readable (table : Table) (before : List String) (c : Clause) : Prop where
  named : ∀ name ∈ c.names, name = "_" ∨ isName name = true
  fresh : (bindable (before ++ c.names)).Nodup
  terms : Term.Readable table (bindable before) (bindable c.names) false c.terms c.names.length

def AllReadable (table : Table) : List String → List Clause → Prop
  | _, [] => True
  | before, c :: rest => c.Readable table before ∧ AllReadable table (before ++ c.names) rest

variable {table : Table} {before : List String} {c : Clause}

theorem Readable.isWord (h : c.Readable table before) :
    ∀ w ∈ c.names.map String.toList, IsWord w := by
  intro w hw
  obtain ⟨name, hn, rfl⟩ := List.mem_map.mp hw
  exact isWord_of_named (h.named name hn)

theorem Readable.isPlain_names (h : c.Readable table before) :
    IsPlain (spaced (c.names.map String.toList)) :=
  .spaced fun w hw => .of_isWord (h.isWord w hw)

theorem Readable.isPlain_terms (h : c.Readable table before) :
    IsPlain (if c.terms.isEmpty then [] else ' ' :: Term.spell c.terms) := by
  split
  · exact .nil
  · exact .cons (.inr (by simp)) h.terms.isPlain

theorem Readable.dropWhile_chars (h : c.Readable table before) :
    c.chars.dropWhile isBlank = c.chars := by
  have hw := h.isWord
  unfold chars
  cases hn : c.names.map String.toList with
  | nil => rfl
  | cons w words =>
    obtain ⟨hne, hc⟩ := hw w (by simp [hn])
    cases w with
    | nil => exact absurd rfl hne
    | cons d ds =>
      have hd := Token.isBlank_of_isWordChar (hc d (by simp))
      cases words <;> simp [hd]

theorem Readable.depth_chars (h : c.Readable table before) (d : Nat) :
    c.chars.foldl Segment.parens d = d := by
  rw [chars, List.foldl_append, h.isPlain_names.depth]
  exact h.terms.isPlain.depth d

theorem Readable.notMem_chars (h : c.Readable table before) {mark : Char}
    (hm : mark ∈ [',', ';', '*']) : mark ∉ c.chars := by
  have hn : mark ∉ spaced (c.names.map String.toList) := h.isPlain_names.notMem (by simp_all; tauto)
  have ht : mark ∉ Term.spell c.terms := h.terms.isPlain.notMem (by simp_all; tauto)
  have hne : mark ≠ ':' ∧ mark ≠ ' ' := by
    fin_cases hm <;> decide
  simp [chars, hn, ht, hne]

theorem AllReadable.forall {clauses : List Clause} (h : AllReadable table before clauses) :
    ∀ c ∈ clauses, ∃ names, c.Readable table names := by
  induction clauses generalizing before with
  | nil => simp
  | cons c clauses ih =>
    rw [List.forall_mem_cons]
    exact ⟨⟨before, h.1⟩, ih h.2⟩

end Clause

def Script.body (clauses : List Clause) : List Char :=
  [','].intercalate (leading ' ' (clauses.map Clause.chars))

theorem Script.toList_text (script : Script) :
    script.text.toList = [';'].intercalate (leading '\n' (script.map body) ++ [[]]) := by
  have hsource : ∀ clauses, (sourceText clauses).toList = body clauses ++ [';'] := by
    intro clauses
    rw [sourceText, String.toList_append, String.toList_intercalate, List.map_map]
    have hc : String.toList ∘ Clause.text = Clause.chars := funext Clause.toList_text
    rw [hc]
    exact congrArg (· ++ [';']) (intercalate_leading ',' ' ' _)
  have hmap : (script.map sourceText).map String.toList = (script.map body).map (· ++ [';']) := by
    rw [List.map_map, List.map_map]
    exact List.map_congr_left fun clauses _ => hsource clauses
  rw [text, String.toList_intercalate, hmap]
  exact intercalate_ended ';' '\n' _

theorem Segment.sides_of_isPlain {segment : Segment} {names terms : List Char} (hn : IsPlain names)
    (ht : IsPlain terms) (hs : segment.chars = names ++ ':' :: terms) :
    ∃ left right, segment.sides = .ok (left, right) ∧ left.chars = names ∧ right.chars = terms := by
  have hsplit : (segment.splitOuter ':').map (·.chars) = [names, terms] := by
    have hp : ∀ p ∈ [names, terms], ':' ∉ p ∧ p.foldl parens 0 = 0 := by
      intro p hp
      simp only [List.mem_cons, List.not_mem_nil, or_false] at hp
      rcases hp with rfl | rfl
      · exact ⟨hn.notMem (by simp), hn.depth 0⟩
      · exact ⟨ht.notMem (by simp), ht.depth 0⟩
    exact chars_splitOuter hp (by simp [hs, List.intercalate_cons_cons])
  match hpieces : segment.splitOuter ':' with
  | [left, right] =>
    rw [hpieces] at hsplit
    simp only [List.map_cons, List.map_nil, List.cons.injEq, and_true] at hsplit
    exact ⟨left, right, by rw [sides, hpieces], hsplit.1, hsplit.2⟩
  | [] => simp [hpieces] at hsplit
  | [_] => simp [hpieces] at hsplit
  | _ :: _ :: _ :: _ => simp [hpieces] at hsplit

def Statement.clause (s : Statement) : Clause :=
  ⟨s.labels.map (·.name), Node.terms s.nodes⟩

namespace Statement

variable {table : Table} {before : List Label} {c : Clause}

theorem ofSides_clause (hb : (Scope.bound before).Nodup)
    (h : c.Readable table (before.map (·.name))) (position : Position) {left right : Segment}
    (hl : left.chars = spaced (c.names.map String.toList))
    (hr : right.chars = if c.terms.isEmpty then [] else ' ' :: Term.spell c.terms) :
    (ofSides table (Scope.after before) position left right).2 = [] ∧
      (ofSides table (Scope.after before) position left right).1.clause = c := by
  have hnames : left.labels.map (·.name) = c.names := by
    rw [Segment.labels, hl, Segment.names_labelsFrom h.isWord]
    simp [Function.comp_def]
  have hpending : (left.labels.filter (·.isBindable)).map (·.name) = bindable c.names := by
    rw [← hnames]
    exact Scope.bound_eq_bindable left.labels
  let ctx : Context := ⟨table, Scope.after before, bindable c.names⟩
  have hf : ctx.Fits table (bindable (before.map (·.name))) (bindable c.names) := by
    refine ⟨rfl, ?_, rfl⟩
    intro name
    rw [← Scope.bound_eq_bindable]
    exact Scope.contains_after
  obtain ⟨ns, hread, hterms, houts⟩ := Reading.read_of_readable hf h.terms hr
  have htyped : Node.Typed table (Scope.after before) false ns := by
    have hp : (Reading.read ctx right).problems = [] := by rw [hread]
    have hs := (Reading.read_sound hp).2
    rw [hread] at hs
    simpa using hs.reverse
  have hlabels : Segment.labelProblems left.labels = [] := by
    rw [Segment.labelProblems, List.map_eq_nil_iff, List.filter_eq_nil_iff]
    intro l hm
    rcases h.named l.name (by rw [← hnames]; exact List.mem_map_of_mem hm) with hu | hn
    · simp [hu]
    · simp [hn]
  have hbind : (Binding.bind left.labels ns).2 = [] := by
    rw [Binding.bind_problems_eq_nil_iff htyped.mapM_outputCount?]
    have hlen := congrArg List.length hnames
    rw [List.length_map] at hlen
    rw [hlen]
    exact houts
  have hfresh : (Scope.after before).duplicates left.labels = [] := by
    rw [Scope.duplicates_eq_nil_iff hb, Scope.bound_eq_bindable, List.map_append, hnames]
    exact h.fresh
  unfold ofSides
  simp only [hpending]
  change Reading.read ctx right = _ at hread
  simp only [ctx] at hread
  simp only [hread, List.reverse_reverse, Bool.false_eq_true, if_false, hlabels, hbind, hfresh]
  refine ⟨by simp, ?_⟩
  simp only [clause, hnames, Node.terms_tagged (Binding.bind_nodes left.labels ns), hterms]

theorem ofSegment_clause (hb : (Scope.bound before).Nodup)
    (h : c.Readable table (before.map (·.name))) {segment : Segment}
    (hs : Padded c.chars segment.chars) :
    ∃ s, ofSegment table (Scope.after before) segment = (some s, []) ∧ s.clause = c := by
  have htrim : segment.trim.chars = spaced (c.names.map String.toList) ++
      ':' :: if c.terms.isEmpty then [] else ' ' :: Term.spell c.terms := by
    rw [← h.terms.trimEnd_spell, ← trimEnd_append_cons (by decide)]
    change trimEnd (segment.chars.dropWhile isBlank) = trimEnd c.chars
    rw [hs.dropWhile_isBlank, h.dropWhile_chars]
  have hne : segment.trim.isEmpty = false := by
    rw [Segment.isEmpty, htrim]
    simp
  obtain ⟨left, right, hsides, hl, hr⟩ :=
    Segment.sides_of_isPlain h.isPlain_names h.isPlain_terms htrim
  obtain ⟨hp, hc⟩ := ofSides_clause hb h segment.trim.position hl hr
  refine ⟨_, ?_, hc⟩
  unfold ofSegment
  simp [hne, hsides, hp]

theorem ofSegment_blank {scope : Scope} {segment : Segment}
    (h : Padded [] segment.chars) : ofSegment table scope segment = (none, []) := by
  have hempty : segment.trim.isEmpty = true := by
    simp [Segment.isEmpty, Segment.trim, h.dropWhile_isBlank, trimEnd]
  simp [ofSegment, hempty]

end Statement

namespace Source

variable {table : Table}

theorem readFrom_clauses {segments : List Segment} {clauses : List Clause}
    (hs : List.Forall₂ (fun segment c => Padded c.chars segment.chars) segments clauses)
    {before : List Label} (hb : (Scope.bound before).Nodup)
    (h : Clause.AllReadable table (before.map (·.name)) clauses) :
    (readFrom table (Scope.after before) segments).2 = [] ∧
      (readFrom table (Scope.after before) segments).1.map Statement.clause = clauses := by
  induction hs generalizing before with
  | nil => exact ⟨rfl, rfl⟩
  | @cons segment c segments clauses hc _ ih =>
    obtain ⟨s, hread, hclause⟩ := Statement.ofSegment_clause hb h.1 hc
    have hnames : s.labels.map (·.name) = c.names := congrArg Clause.names hclause
    have hb' : (Scope.bound (before ++ s.labels)).Nodup := by
      rw [Scope.bound_eq_bindable, List.map_append, hnames]
      exact h.1.fresh
    obtain ⟨hp, hcs⟩ := ih hb' (by rw [List.map_append, hnames]; exact h.2)
    rw [readFrom, hread]
    simp only [Scope.declareAll_after]
    exact ⟨by rw [hp]; rfl, by rw [List.map_cons, hclause, hcs]⟩

theorem ofSegment_clauses {clauses : List Clause} (h : Clause.AllReadable table [] clauses)
    {segment : Segment} (hs : Padded (Script.body clauses) segment.chars) :
    (ofSegment table segment).2 = [] ∧
      (ofSegment table segment).1.statements.map Statement.clause = clauses := by
  rw [ofSegment_eq]
  cases clauses with
  | nil =>
    have hs : Padded [] segment.chars := hs
    have hsplit : segment.statements.map (·.chars) = [segment.chars] := by
      refine Segment.chars_splitOuter ?_ (by simp)
      simp [hs.notMem, hs.depth, isBlank]
    obtain ⟨only, honly, hchars⟩ := List.map_eq_singleton_iff.mp hsplit
    have hblank : Statement.ofSegment table {} only = (none, []) :=
      Statement.ofSegment_blank (by rw [hchars]; exact hs)
    rw [honly]
    simp [readFrom, hblank]
  | cons c clauses =>
    obtain ⟨first, hfirst, hjoined⟩ := hs.intercalate
    have hpieces : List.Forall₂ (fun (c : Clause) p => Padded c.chars p) (c :: clauses)
        (first :: (clauses.map Clause.chars).map (' ' :: ·)) := by
      rw [List.map_map]
      refine .cons hfirst ?_
      rw [List.forall₂_map_right_iff, List.forall₂_same]
      exact fun d _ => .single (by decide) d.chars
    have hsplit : segment.statements.map (·.chars) =
        first :: (clauses.map Clause.chars).map (' ' :: ·) := by
      refine Segment.chars_splitOuter ?_ hjoined
      intro p hp
      obtain ⟨d, hd, hpadded⟩ := forall₂_mem_right hpieces hp
      obtain ⟨names, hc⟩ := h.forall d hd
      exact ⟨hpadded.notMem (by decide) (hc.notMem_chars (by simp)),
        (hpadded.depth 0).trans (hc.depth_chars 0)⟩
    rw [← hsplit, List.forall₂_map_right_iff] at hpieces
    have hempty : (Scope.bound []).Nodup := by simp [Scope.bound]
    exact readFrom_clauses hpieces.flip hempty h

theorem ofSegments_clauses {segments : List Segment} {script : Script}
    (hs : List.Forall₂ (fun segment clauses => Padded (Script.body clauses) segment.chars)
      segments script)
    (h : ∀ clauses ∈ script, Clause.AllReadable table [] clauses) :
    segments.flatMap (fun s => (ofSegment table s).2) = [] ∧
      segments.map (fun s => (ofSegment table s).1.statements.map Statement.clause) = script := by
  induction hs with
  | nil => exact ⟨rfl, rfl⟩
  | cons hc _ ih =>
    rw [List.forall_mem_cons] at h
    obtain ⟨hp, hclauses⟩ := ofSegment_clauses h.1 hc
    obtain ⟨hps, hscript⟩ := ih h.2
    rw [List.flatMap_cons, List.map_cons, hp, hclauses, hps, hscript]
    exact ⟨rfl, rfl⟩

end Source

def Document.script (d : Document) : Script :=
  d.sources.map (·.statements.map Statement.clause)

namespace Script

theorem notMem_body {table : Table} {clauses : List Clause}
    (h : Clause.AllReadable table [] clauses) {mark : Char} (hm : mark ∈ [';', '*']) :
    mark ∉ body clauses := by
  have hne : mark ≠ ',' ∧ mark ≠ ' ' := by
    fin_cases hm <;> decide
  have hall : ∀ p ∈ clauses.map Clause.chars, mark ∉ p := by
    intro p hp
    obtain ⟨c, hc, rfl⟩ := List.mem_map.mp hp
    obtain ⟨names, hr⟩ := h.forall c hc
    exact hr.notMem_chars (List.mem_cons_of_mem _ hm)
  refine notMem_intercalate (by simpa using hne.1) ?_
  exact notMem_leading hne.2 hall

theorem notMem_leading_body {table : Table} {script : Script}
    (h : ∀ clauses ∈ script, Clause.AllReadable table [] clauses) {mark : Char}
    (hm : mark ∈ [';', '*']) : ∀ p ∈ leading '\n' (script.map body), mark ∉ p := by
  refine notMem_leading (by fin_cases hm <;> decide) ?_
  intro p hp
  obtain ⟨clauses, hc, rfl⟩ := List.mem_map.mp hp
  exact notMem_body (h clauses hc) hm

theorem notMem_text {table : Table} {script : Script}
    (h : ∀ clauses ∈ script, Clause.AllReadable table [] clauses) :
    '*' ∉ script.text.toList := by
  rw [toList_text]
  refine notMem_intercalate (by decide) ?_
  intro p hp
  rcases List.mem_append.mp hp with hp | hp
  · exact notMem_leading_body h (by simp) p hp
  · simp_all

end Script

namespace Segment

theorem sources_ended {pieces : List (List Char)} (h : ∀ p ∈ pieces, ';' ∉ p) :
    (sources ([';'].intercalate (pieces ++ [[]]))).map (·.chars) = pieces := by
  have hp : ∀ p ∈ pieces ++ [[]], ';' ∉ p ∧ p.foldl (fun depth _ => depth) 0 = 0 := by
    intro p hp
    refine ⟨?_, List.foldl_fixed _⟩
    rcases List.mem_append.mp hp with hp | hp
    · exact h p hp
    · simp_all
  have hsplit : (split ';' ⟨0, [';'].intercalate (pieces ++ [[]])⟩).map (·.chars) =
      pieces ++ [[]] := by
    have hne : pieces ++ [[]] ≠ [] := by simp
    obtain ⟨p, ps, hps⟩ := List.exists_cons_of_ne_nil hne
    rw [hps] at hp ⊢
    exact chars_splitFrom hp _ _
  obtain ⟨init, last, heq, hinit, hlast⟩ := List.map_eq_append_iff.mp hsplit
  obtain ⟨only, rfl, hchars⟩ := List.map_eq_singleton_iff.mp hlast
  have hempty : only.trim.isEmpty = true := by
    simp [Segment.isEmpty, Segment.trim, hchars, trimEnd]
  rw [sources, heq, dropBlankLast]
  simp [hempty, hinit]

end Segment

namespace Document

variable {table : Table}

/-- What is written comes back when it is read. -/
theorem read_script {script : Script}
    (h : ∀ clauses ∈ script, Clause.AllReadable table [] clauses) :
    (read table script.text.toList).problems = [] ∧
      (read table script.text.toList).script = script := by
  have hcomments := stripComments_of_notMem (Script.notMem_text h)
  have hsources := Segment.sources_ended (Script.notMem_leading_body h (by simp))
  rw [← Script.toList_text] at hsources
  have hp := padded_leading (by decide : isBlank '\n' = true) (script.map Script.body)
  rw [← hsources, List.forall₂_map_left_iff, List.forall₂_map_right_iff] at hp
  obtain ⟨hnone, hclauses⟩ := Source.ofSegments_clauses hp.flip h
  refine ⟨?_, ?_⟩
  · simpa [read, hcomments, List.flatMap_map] using hnone
  · rw [Document.script, read, hcomments, List.map_map, List.map_map]
    exact hclauses

end Document

end Wordcode
