import Wordcode.Document.Reader
import Wordcode.Opcode.Builtin
import Wordcode.Proofs.Scopes
import Wordcode.Proofs.Soundness

namespace Wordcode

/-- A statement behind the labels `before`: its names are new, its nodes are typed and leave one
value for each name. -/
structure Statement.Sound (table : Table) (before : List Label) (s : Statement) : Prop where
  named : ∀ l ∈ s.labels, l.name = "_" ∨ isName l.name = true
  fresh : (Scope.bound (before ++ s.labels)).Nodup
  typed : Node.Typed table (Scope.after before) false s.nodes
  balanced : Node.outputsOf s.nodes = s.labels.length

def Statement.AllSound (table : Table) : List Label → List Statement → Prop
  | _, [] => True
  | before, s :: rest => s.Sound table before ∧ AllSound table (before ++ s.labels) rest

namespace Statement

variable {table : Table} {before : List Label}

theorem AllSound.get {ss : List Statement} (h : AllSound table before ss) {i : Nat}
    {s : Statement} (hs : ss[i]? = some s) :
    s.Sound table (before ++ (ss.take i).flatMap (·.labels)) := by
  induction ss generalizing before i with
  | nil => simp at hs
  | cons t ss ih =>
    cases i with
    | zero =>
      simp only [List.getElem?_cons_zero, Option.some.injEq] at hs
      subst hs
      simpa using h.1
    | succ i => simpa using ih h.2 (by simpa using hs)

theorem AllSound.nodup {ss : List Statement} (h : AllSound table before ss)
    (hb : (Scope.bound before).Nodup) :
    (Scope.bound (before ++ ss.flatMap (·.labels))).Nodup := by
  induction ss generalizing before with
  | nil => simpa using hb
  | cons s ss ih => simpa using ih h.2 h.1.fresh

theorem labelProblems_eq_nil {labels : List Label} (h : Segment.labelProblems labels = []) :
    ∀ l ∈ labels, l.name = "_" ∨ isName l.name = true := by
  intro l hl
  simp only [Segment.labelProblems, List.map_eq_nil_iff, List.filter_eq_nil_iff] at h
  have hn := h l hl
  simp only [Bool.and_eq_true, bne_iff_ne, Bool.not_eq_true', not_and,
    Bool.not_eq_false] at hn
  by_cases hu : l.name = "_"
  · exact .inl hu
  · exact .inr (hn hu)

theorem ofSides_sound {position : Position} {left right : Segment}
    (hb : (Scope.bound before).Nodup)
    (hp : (ofSides table (Scope.after before) position left right).2 = []) :
    (ofSides table (Scope.after before) position left right).1.Sound table before := by
  unfold ofSides at hp ⊢
  simp only [List.append_eq_nil_iff, List.reverse_eq_nil_iff] at hp ⊢
  obtain ⟨⟨⟨hl, hr⟩, hu⟩, hd⟩ := hp
  obtain ⟨hk, ht⟩ := Reading.read_sound hr
  simp only [hk, Bool.false_eq_true, if_false] at hu ⊢
  have hc := ht.reverse.mapM_outputCount?
  have hbind := (Binding.bind_problems_eq_nil_iff hc).mp hu
  have htag := Binding.bind_nodes left.labels (Reading.read ⟨table, Scope.after before,
    (left.labels.filter (·.isBindable)).map (·.name)⟩ right).nodes.reverse
  refine ⟨labelProblems_eq_nil hl, (Scope.duplicates_eq_nil_iff hb).mp hd,
    ht.reverse.of_tagged htag, ?_⟩
  rw [← hbind]
  exact Node.outputsOf_tagged htag

theorem ofSegment_sound {segment : Segment} (hb : (Scope.bound before).Nodup)
    (hp : (ofSegment table (Scope.after before) segment).2 = []) :
    ∀ s ∈ (ofSegment table (Scope.after before) segment).1, s.Sound table before := by
  intro s hs
  unfold ofSegment at hs hp
  dsimp only at hs hp
  split at hs
  · simp at hs
  · rename_i hne
    rw [if_neg hne] at hp
    split at hs
    · simp at hs
    · rename_i left right hsides
      rw [hsides] at hp
      simp only [Option.mem_def, Option.some.injEq] at hs
      subst hs
      exact ofSides_sound hb hp

theorem exists_ofSides {scope : Scope} {segment : Segment} {s : Statement} {problems : List Problem}
    (h : ofSegment table scope segment = (some s, problems)) :
    ∃ left right, segment.trim.isEmpty = false ∧ segment.trim.sides = .ok (left, right) ∧
      ofSides table scope segment.trim.position left right = (s, problems) := by
  unfold ofSegment at h
  dsimp only at h
  split at h
  · cases h
  · rename_i hne
    split at h
    · cases h
    · rename_i left right hsides
      rw [Prod.mk.injEq, Option.some.injEq] at h
      exact ⟨left, right, by simpa using hne, hsides, Prod.ext h.1 h.2⟩

end Statement

namespace Source

variable {table : Table}

def readFrom (table : Table) (scope : Scope) : List Segment → List Statement × List Problem
  | [] => ([], [])
  | segment :: rest =>
    match Statement.ofSegment table scope segment with
    | (none, problems) =>
      ((readFrom table scope rest).1, problems ++ (readFrom table scope rest).2)
    | (some s, problems) =>
      (s :: (readFrom table (scope.declareAll s.labels) rest).1,
        problems ++ (readFrom table (scope.declareAll s.labels) rest).2)

theorem foldl_step_eq (table : Table) (segments : List Segment) (p : Progress) :
    (segments.foldl (Progress.step table) p).statements =
        (readFrom table p.scope segments).1.reverse ++ p.statements ∧
      (segments.foldl (Progress.step table) p).problems.reverse.flatten =
        p.problems.reverse.flatten ++ (readFrom table p.scope segments).2 := by
  induction segments generalizing p with
  | nil => simp [readFrom]
  | cons segment rest ih =>
    obtain ⟨hs, hp⟩ := ih (p.step table segment)
    cases hr : Statement.ofSegment table p.scope segment with
    | mk found problems =>
      cases found with
      | none =>
        have he : p.step table segment = { p with problems := problems :: p.problems } := by
          simp [Progress.step, hr]
        rw [he] at hs hp
        simp only [List.foldl_cons, he, hs, hp, readFrom, hr]
        simp
      | some s =>
        have he : p.step table segment =
            ⟨p.scope.declareAll s.labels, s :: p.statements, problems :: p.problems⟩ := by
          simp [Progress.step, hr]
        rw [he] at hs hp
        simp only [List.foldl_cons, he, hs, hp, readFrom, hr]
        simp

theorem ofSegment_eq (table : Table) (segment : Segment) :
    ofSegment table segment =
      (⟨segment.trim.position, (readFrom table {} segment.statements).1⟩,
        (readFrom table {} segment.statements).2) := by
  obtain ⟨hs, hp⟩ := foldl_step_eq table segment.statements {}
  unfold ofSegment
  simp only [hs, hp]
  simp

theorem exists_ofSides {scope : Scope} {segments : List Segment} {s : Statement}
    (h : s ∈ (readFrom table scope segments).1) :
    ∃ scope', ∃ segment ∈ segments, ∃ left right, segment.trim.isEmpty = false ∧
      segment.trim.sides = .ok (left, right) ∧
      s = (Statement.ofSides table scope' segment.trim.position left right).1 ∧
      (Statement.ofSides table scope' segment.trim.position left right).2 ⊆
        (readFrom table scope segments).2 := by
  induction segments generalizing scope with
  | nil => simp [readFrom] at h
  | cons segment rest ih =>
    rcases hr : Statement.ofSegment table scope segment with ⟨found, problems⟩
    cases found with
    | none =>
      simp only [readFrom, hr] at h ⊢
      obtain ⟨scope', seg, hseg, left, right, hne, hsides, hs, hp⟩ := ih h
      exact ⟨scope', seg, List.mem_cons_of_mem _ hseg, left, right, hne, hsides, hs,
        List.Subset.trans hp (List.subset_append_right _ _)⟩
    | some first =>
      simp only [readFrom, hr, List.mem_cons] at h ⊢
      rcases h with rfl | h
      · obtain ⟨left, right, hne, hsides, hread⟩ := Statement.exists_ofSides hr
        refine ⟨scope, segment, .inl rfl, left, right, hne, hsides, by rw [hread], ?_⟩
        rw [hread]
        exact List.subset_append_left _ _
      · obtain ⟨scope', seg, hseg, left, right, hne, hsides, hs, hp⟩ := ih h
        exact ⟨scope', seg, .inr hseg, left, right, hne, hsides, hs,
          List.Subset.trans hp (List.subset_append_right _ _)⟩

theorem readFrom_sound {segments : List Segment} {before : List Label}
    (hb : (Scope.bound before).Nodup)
    (hp : (readFrom table (Scope.after before) segments).2 = []) :
    Statement.AllSound table before (readFrom table (Scope.after before) segments).1 := by
  induction segments generalizing before with
  | nil => trivial
  | cons segment rest ih =>
    have hsound : (Statement.ofSegment table (Scope.after before) segment).2 = [] → _ :=
      Statement.ofSegment_sound hb
    cases hr : Statement.ofSegment table (Scope.after before) segment with
    | mk found problems =>
      rw [hr] at hsound
      cases found with
      | none =>
        simp only [readFrom, hr, List.append_eq_nil_iff] at hp ⊢
        exact ih hb hp.2
      | some s =>
        simp only [readFrom, hr, List.append_eq_nil_iff] at hp ⊢
        have hs := hsound hp.1 s rfl
        rw [Scope.declareAll_after] at hp ⊢
        exact ⟨hs, ih hs.fresh hp.2⟩

end Source

namespace Document

variable {table : Table} {text : List Char}

theorem read_sound (h : (read table text).problems = []) :
    ∀ s ∈ (read table text).sources, Statement.AllSound table [] s.statements := by
  intro s hs
  simp only [read, List.append_eq_nil_iff, List.flatMap_eq_nil_iff] at h
  simp only [read, List.map_map, List.mem_map, Function.comp_apply] at hs
  obtain ⟨segment, hm, rfl⟩ := hs
  have hp := h.2 _ (List.mem_map_of_mem hm)
  rw [Source.ofSegment_eq] at hp ⊢
  have hb : (Scope.bound []).Nodup := by simp [Scope.bound]
  exact Source.readFrom_sound hb hp

theorem exists_ofSides {source : Source} (hsource : source ∈ (read table text).sources)
    {s : Statement} (hs : s ∈ source.statements) :
    ∃ scope, ∃ whole ∈ Segment.sources (stripComments text).chars,
      ∃ segment ∈ whole.statements, ∃ left right, segment.trim.isEmpty = false ∧
      segment.trim.sides = .ok (left, right) ∧
      s = (Statement.ofSides table scope segment.trim.position left right).1 ∧
      (Statement.ofSides table scope segment.trim.position left right).2 ⊆
        (read table text).problems := by
  simp only [read, List.map_map, List.mem_map, Function.comp_apply] at hsource
  obtain ⟨whole, hm, rfl⟩ := hsource
  rw [Source.ofSegment_eq] at hs
  obtain ⟨scope, segment, hseg, left, right, hne, hsides, heq, hp⟩ := Source.exists_ofSides hs
  refine ⟨scope, whole, hm, segment, hseg, left, right, hne, hsides, heq, fun q hq => ?_⟩
  have hwhole : q ∈ (Source.ofSegment table whole).2 := by
    rw [Source.ofSegment_eq]
    exact hp hq
  exact List.mem_append_right _ (List.mem_flatMap.mpr ⟨_, List.mem_map_of_mem hm, hwhole⟩)

theorem unresolved?_eq_none (h : ∀ s ∈ (read table text).sources,
    Statement.AllSound table [] s.statements) : (read table text).unresolved? = none := by
  have hn : ∀ n ∈ (read table text).nodes, ∃ scope, Node.Typed table scope false [n] := by
    intro n hn
    simp only [nodes, List.mem_flatMap] at hn
    obtain ⟨s, hs, st, hst, hm⟩ := hn
    obtain ⟨i, hi⟩ := List.getElem?_of_mem hst
    exact ⟨_, Node.typed_iff_forall.mp ((h s hs).get hi).typed n hm⟩
  unfold unresolved?
  generalize (read table text).nodes = ns at hn
  induction ns with
  | nil => rfl
  | cons n ns ih =>
    obtain ⟨scope, ht⟩ := hn n (by simp)
    have hu : n.unresolved? = none := by
      have hf := ht.firstUnresolved?_eq_none
      cases hc : n.unresolved? with
      | none => rfl
      | some m => simp [Node.firstUnresolved?, hc] at hf
    rw [Node.firstUnresolved?, hu]
    exact ih fun m hm => hn m (by simp [hm])

theorem bound_eq_filter {labels : List Label}
    (h : ∀ l ∈ labels, l.name = "_" ∨ isName l.name = true) :
    Scope.bound labels = (labels.map (·.name)).filter (· != "_") := by
  rw [Scope.bound, List.filter_map]
  congr 1
  apply List.filter_congr
  intro l hl
  rcases h l hl with hu | hn
  · simp [Label.isBindable, hu]
  · simp [Label.isBindable, hn]

/-- A text without problems is resolved at every depth, each of its statements is balanced, its
names are proper and unique in their source, and references are to earlier statements. -/
theorem read_isComplete (table : Table) (text : List Char)
    (h : (read table text).problems = []) :
    (read table text).unresolved? = none ∧
      ∀ source ∈ (read table text).sources,
        (∀ l ∈ source.labels, l.name = "_" ∨ isName l.name = true) ∧
        ((source.labels.map (·.name)).filter (· != "_")).Nodup ∧
        ∀ i s, source.statements[i]? = some s →
          (∃ counts, s.nodes.mapM Node.outputCount? = some counts ∧
            counts.sum = s.labels.length) ∧
          ∀ root ∈ s.nodes, ∀ n : Node, n.Occurs root → n.IsKnown ∧
            ∀ name p tags, n = .reference name p tags →
              ∃ l ∈ (source.statements.take i).flatMap (·.labels), l.name = name := by
  have hsound := read_sound h
  refine ⟨unresolved?_eq_none hsound, ?_⟩
  intro source hm
  have hs := hsound source hm
  have hn : ∀ l ∈ source.labels, l.name = "_" ∨ isName l.name = true := by
    intro l hl
    obtain ⟨s, hst, hls⟩ := List.mem_flatMap.mp hl
    obtain ⟨i, hi⟩ := List.getElem?_of_mem hst
    exact (hs.get hi).named l hls
  refine ⟨hn, ?_, ?_⟩
  · rw [← bound_eq_filter hn]
    simpa [Source.labels] using hs.nodup (by simp [Scope.bound])
  · intro i s hi
    have ht := hs.get hi
    refine ⟨⟨_, ht.typed.mapM_outputCount?, ht.balanced⟩, ?_⟩
    intro root hroot n ho
    obtain ⟨b, hb⟩ := (Node.typed_iff_forall.mp ht.typed root hroot).of_occurs ho
    refine ⟨hb.isKnown, ?_⟩
    rintro name p tags rfl
    cases hb with
    | reference hc _ =>
      obtain ⟨l, hl, hbind⟩ := Scope.mem_bound.mp (Scope.contains_after.mp hc)
      refine ⟨l, by simpa using hl, ?_⟩
      simp only [Label.binds, Bool.and_eq_true, beq_iff_eq] at hbind
      exact hbind.2

theorem read_isComplete_nested :
    let d := read Table.builtin
      "a _: add(1 2) 0x10, b: add(a mul(a 3)), : ensure(b a), _: read-memory<0 0>();".toList
    d.problems = [] ∧ d.sources.map (·.labels.map (·.name)) = [["a", "_", "b", "_"]] ∧
      d.sources.map (·.statements.length) = [4] ∧ d.unresolved? = none ∧
      ∀ source ∈ d.sources, ((source.labels.map (·.name)).filter (· != "_")).Nodup := by
  intro d
  have hd : d.problems = [] ∧ d.sources.map (·.labels.map (·.name)) = [["a", "_", "b", "_"]] ∧
      d.sources.map (·.statements.length) = [4] := by decide +kernel
  have h := read_isComplete Table.builtin _ hd.1
  exact ⟨hd.1, hd.2.1, hd.2.2, h.1, fun source hm => (h.2 source hm).2.1⟩

end Document

end Wordcode
