import Wordcode.Proofs.Blanking
import Wordcode.Proofs.Coverage
import Wordcode.Proofs.Documents
import Wordcode.Proofs.Rows

namespace Wordcode

def Position.chars (p : Position) (text : List Char) : List Char :=
  (text.drop p.first).take (p.last + 1 - p.first)

theorem Stands.chars_eq {text cs : List Char} {p : Position} (h : Stands text p.first cs)
    (hlen : p.first + cs.length = p.last + 1) : p.chars text = cs := by
  obtain ⟨before, after, hbefore, rfl⟩ := h
  have hcs : p.last + 1 - p.first = cs.length := by omega
  rw [Position.chars, hcs, ← hbefore, List.append_assoc, List.drop_left, List.take_left]

theorem Spelled.chars_eq {text : List Char} {word : String} {p : Position}
    (h : Spelled text word p) : p.chars text = word.toList :=
  h.stands.chars_eq h.length

theorem Node.Laid.of_tagged {text : List Char} {lo hi : Nat} {ns ns' : List Node}
    {labels : List Label} (h : Laid text lo hi ns)
    (ht : List.Forall₂ (TaggedFrom labels) ns ns')
    (hl : ∀ l ∈ labels, Spelled text l.name l.position) : Laid text lo hi ns' := by
  induction h generalizing ns' with
  | nil hle =>
    cases ht
    exact .nil hle
  | @cons lo hi n ns hlo hn htags hparams _ _ ih =>
    obtain ⟨n', ns', htag, hrest, rfl⟩ := List.forall₂_cons_left_iff.mp ht
    obtain ⟨tags, hsub, rfl⟩ := htag
    have hall : ∀ l ∈ (n.attach tags).tags, Spelled text l.name l.position := by
      intro l hm
      rcases mem_tags_attach hm with hm | hm
      · exact htags l hm
      · exact hl l (hsub hm)
    cases n <;> exact .cons hlo hn hall hparams (ih hrest)

namespace Statement

variable {table : Table} {text : List Char} {scope : Scope} {segment left right : Segment}

/-- The names and nodes of a statement stand inside of it. -/
structure Laid (text : List Char) (s : Statement) : Prop where
  labels : ∀ l ∈ s.labels, Segment.LabelIn text s.position.first (s.position.last + 1) l
  nodes : Node.Laid text s.position.first (s.position.last + 1) s.nodes

theorem taggedFrom_ofSides (table : Table) (scope : Scope) (position : Position)
    (left right : Segment) :
    List.Forall₂ (Node.TaggedFrom left.labels)
      (Reading.read ⟨table, scope, (left.labels.filter (·.isBindable)).map (·.name)⟩
        right).nodes.reverse
      (ofSides table scope position left right).1.nodes := by
  unfold ofSides
  dsimp only
  split
  · exact List.forall₂_same.mpr fun n _ => n.taggedFrom_self _
  · exact Binding.bind_taggedFrom _ _

section Sides

variable (h : Stands text segment.start segment.chars) (hne : segment.isEmpty = false)
  (hs : segment.sides = .ok (left, right))

include h hs

theorem labelIn_sides : ∀ l ∈ left.labels, Segment.LabelIn text segment.start segment.stop l := by
  obtain ⟨hleft, -, hstart, hcolon, hstop⟩ := Segment.stands_sides h hs
  intro l hl
  have hright : right.start ≤ right.stop := Nat.le_add_right _ _
  exact (Segment.labelIn_labels hleft l hl).mono hstart.ge (by omega)

theorem laid_sides (ctx : Context) :
    Node.Laid text segment.start segment.stop (Reading.read ctx right).nodes.reverse := by
  obtain ⟨-, hright, hstart, hcolon, hstop⟩ := Segment.stands_sides h hs
  have hleft : left.start ≤ left.stop := Nat.le_add_right _ _
  exact (Reading.laid_read ctx hright).mono (by omega) hstop.le

include hne in
theorem laid_ofSides : (ofSides table scope segment.position left right).1.Laid text := by
  obtain ⟨hfirst, hlast⟩ := Segment.position_of_ne hne
  have hlabels := labelIn_sides h hs
  have hnodes := (laid_sides h hs _).of_tagged
    (taggedFrom_ofSides table scope segment.position left right) fun l hl => (hlabels l hl).1
  rw [← hfirst, ← hlast] at hlabels hnodes
  exact ⟨hlabels, hnodes⟩

theorem ofSides_problems_within (position : Position) :
    ∀ q ∈ (ofSides table scope position left right).2,
      q.position.Within segment.start segment.stop := by
  have hlabels := labelIn_sides h hs
  have hnodes := laid_sides h hs
    ⟨table, scope, (left.labels.filter (·.isBindable)).map (·.name)⟩
  obtain ⟨-, hright, hstart, hcolon, hstop⟩ := Segment.stands_sides h hs
  have hleft : left.start ≤ left.stop := Nat.le_add_right _ _
  intro q hq
  unfold ofSides at hq
  simp only [List.mem_append, List.mem_reverse] at hq
  rcases hq with ((hq | hq) | hq) | hq
  · obtain ⟨l, hl, rfl⟩ := List.mem_map.mp hq
    exact (hlabels l (List.mem_of_mem_filter hl)).2
  · exact (Reading.reportsIn_read _ hright q hq).mono (by omega) hstop.le
  · split at hq
    · cases hq
    · rcases Binding.bind_problems_mem q hq with ⟨n, hn, rfl⟩ | ⟨l, hl, rfl⟩
      · exact hnodes.position_within n hn
      · exact (hlabels l hl).2
  · obtain ⟨l, hl, rfl⟩ := Scope.duplicates_mem hq
    exact (hlabels l hl).2

end Sides

variable (h : Stands text segment.start segment.chars)

include h

theorem laid_ofSegment {s : Statement} {problems : List Problem}
    (hs : ofSegment table scope segment = (some s, problems)) :
    s.Laid text ∧ s.position.Within segment.start segment.stop := by
  obtain ⟨left, right, hne, hsides, hread⟩ := exists_ofSides hs
  have hlaid : (ofSides table scope segment.trim.position left right).1.Laid text :=
    laid_ofSides (segment.stands_trim h) hne hsides
  have hposition : (ofSides table scope segment.trim.position left right).1.position =
      segment.trim.position := rfl
  rw [hread] at hlaid hposition
  refine ⟨hlaid, ?_⟩
  rw [hposition]
  exact (Segment.position_within hne).mono segment.start_le_trim segment.trim_stop_le

theorem ofSegment_problems_within :
    ∀ q ∈ (ofSegment table scope segment).2, q.position.Within segment.start segment.stop := by
  intro q hq
  have htrim := segment.stands_trim h
  have hmono : q.position.Within segment.trim.start segment.trim.stop →
      q.position.Within segment.start segment.stop :=
    fun hw => hw.mono segment.start_le_trim segment.trim_stop_le
  unfold ofSegment at hq
  dsimp only at hq
  split at hq
  · cases hq
  · rename_i hne
    apply hmono
    split at hq
    · rename_i problem hsides
      rw [List.mem_singleton.mp hq, Segment.sides_error_position hsides]
      exact Segment.position_within (by simpa using hne)
    · rename_i left right hsides
      exact ofSides_problems_within htrim hsides segment.trim.position q hq

end Statement

namespace Source

variable {table : Table} {text : List Char} {lo hi : Nat} {segments : List Segment}

theorem row_readFrom (h : Segment.Row text lo hi segments) (scope : Scope) :
    InRow Statement.position (Statement.Laid text) lo hi (readFrom table scope segments).1 := by
  have hstep : ∀ {hi : Nat} {scope : Scope} {segment : Segment} {s : Statement}
      {problems : List Problem} {rest : List Statement},
      Stands text segment.start segment.chars →
      Statement.ofSegment table scope segment = (some s, problems) →
      InRow Statement.position (Statement.Laid text) segment.stop hi rest →
      InRow Statement.position (Statement.Laid text) segment.start hi (s :: rest) := by
    intro hi scope segment s problems rest hstands hs hrest
    obtain ⟨hlaid, hge, hle, hlt⟩ := Statement.laid_ofSegment hstands hs
    exact .cons hge hle hlaid (hrest.mono hlt (Nat.le_refl _))
  induction h generalizing scope with
  | @last segment hstands =>
    have hle : segment.start ≤ segment.stop := Nat.le_add_right _ _
    unfold readFrom
    split
    · exact .nil hle
    · rename_i s problems hs
      exact hstep hstands hs (.nil (Nat.le_refl _))
  | @cons hi segment rest hstands _ ih =>
    have hle : segment.start ≤ segment.stop := Nat.le_add_right _ _
    unfold readFrom
    split
    · exact (ih scope).mono (by omega) (Nat.le_refl _)
    · rename_i s problems hs
      exact hstep hstands hs ((ih _).mono (Nat.le_succ _) (Nat.le_refl _))

theorem readFrom_problems_within {scope : Scope} (h : ∀ segment ∈ segments,
    Stands text segment.start segment.chars ∧ lo ≤ segment.start ∧ segment.stop ≤ hi) :
    ∀ q ∈ (readFrom table scope segments).2, q.position.Within lo hi := by
  induction segments generalizing scope with
  | nil => simp [readFrom]
  | cons segment rest ih =>
    rw [List.forall_mem_cons] at h
    obtain ⟨⟨hstands, hlo, hhi⟩, hrest⟩ := h
    have hfirst : ∀ q ∈ (Statement.ofSegment table scope segment).2,
        q.position.Within segment.start segment.stop :=
      Statement.ofSegment_problems_within hstands
    intro q hq
    unfold readFrom at hq
    split at hq
    all_goals
      rename_i hs
      rw [hs] at hfirst
      rcases List.mem_append.mp hq with hq | hq
      · exact (hfirst q hq).mono hlo hhi
      · exact ih hrest q hq

theorem ofSegment_problems_within {segment : Segment}
    (h : Stands text segment.start segment.chars) :
    ∀ q ∈ (ofSegment table segment).2, q.position.Within segment.start segment.stop := by
  rw [ofSegment_eq]
  exact readFrom_problems_within fun piece hp => (Segment.row_splitOuter h).of_mem hp

theorem position_within (h : Segment.Row text lo hi segments) :
    ∀ segment ∈ Segment.dropBlankLast segments, segment.trim.position.Within lo hi := by
  have hsolid : ∀ {segment : Segment}, segment.trim.isEmpty = false →
      segment.trim.position.Within segment.start segment.stop := fun {segment} hne =>
    (Segment.position_within hne).mono segment.start_le_trim segment.trim_stop_le
  induction h with
  | @last s _ =>
    rw [Segment.dropBlankLast_singleton]
    split
    · simp
    · rename_i hne
      simpa using hsolid (by simpa using hne)
  | @cons hi s rest _ hrest ih =>
    have hle := hrest.le
    have hstop : s.start ≤ s.stop := Nat.le_add_right _ _
    rw [Segment.dropBlankLast_cons hrest.ne_nil, List.forall_mem_cons]
    refine ⟨?_, fun t ht => (ih t ht).mono (by omega) (Nat.le_refl _)⟩
    cases hne : s.trim.isEmpty with
    | true =>
      rw [Segment.position_of_isEmpty hne, Segment.trim_start_of_isEmpty hne]
      exact Position.within_point hstop (by omega)
    | false => exact (hsolid hne).mono (Nat.le_refl _) (by omega)

theorem row_statements (h : Segment.Row text lo hi segments) :
    InRow Statement.position (Statement.Laid text) lo hi
      ((Segment.dropBlankLast segments).flatMap fun s => (ofSegment table s).1.statements) := by
  have hone : ∀ {s : Segment}, Stands text s.start s.chars →
      InRow Statement.position (Statement.Laid text) s.start s.stop
        (ofSegment table s).1.statements := by
    intro s hs
    rw [ofSegment_eq]
    exact row_readFrom (Segment.row_splitOuter hs) {}
  induction h with
  | @last s hs =>
    rw [Segment.dropBlankLast_singleton]
    split
    · exact .nil (Nat.le_add_right _ _)
    · simpa using hone hs
  | @cons hi s rest hs hrest ih =>
    rw [Segment.dropBlankLast_cons hrest.ne_nil, List.flatMap_cons]
    exact (hone hs).append (ih.mono (Nat.le_succ _) (Nat.le_refl _))

end Source

namespace Document

variable {table : Table} {text : List Char}

theorem row_sources (text : List Char) :
    Segment.Row (stripComments text).chars 0 text.length
      (Segment.split ';' ⟨0, (stripComments text).chars⟩) := by
  have h : Segment.Row (stripComments text).chars 0 (0 + (stripComments text).chars.length)
      (Segment.split ';' ⟨0, (stripComments text).chars⟩) :=
    Segment.row_split (s := ⟨0, _⟩) (.self _)
  rwa [Nat.zero_add, length_stripComments] at h

theorem stands_of_mem_sources {segment : Segment}
    (h : segment ∈ Segment.sources (stripComments text).chars) :
    Stands (stripComments text).chars segment.start segment.chars ∧
      segment.stop ≤ text.length := by
  have hsub : ∀ ss : List Segment, Segment.dropBlankLast ss ⊆ ss := by
    intro ss
    unfold Segment.dropBlankLast
    split
    · split
      · exact List.dropLast_subset _
      · exact List.Subset.refl _
    · exact List.Subset.refl _
  obtain ⟨hs, -, hle⟩ := (row_sources text).of_mem (hsub _ h)
  exact ⟨hs, hle⟩

theorem row_statements (table : Table) (text : List Char) :
    InRow Statement.position (Statement.Laid text) 0 text.length
      ((read table text).sources.flatMap (·.statements)) := by
  have hb := blanked_stripComments text
  have hmap : (read table text).sources.flatMap (·.statements) =
      (Segment.sources (stripComments text).chars).flatMap
        fun s => (Source.ofSegment table s).1.statements := by
    simp only [read, List.flatMap_map]
  rw [hmap]
  refine (Source.row_statements (row_sources text)).imp fun s hs =>
    ⟨fun l hl => ?_, hb.laid hs.nodes⟩
  obtain ⟨hspelled, hwithin⟩ := hs.labels l hl
  exact ⟨hb.spelled hspelled, hwithin⟩

theorem laid_of_mem {source : Source} (hsource : source ∈ (read table text).sources)
    {s : Statement} (hs : s ∈ source.statements) :
    s.position.Within 0 text.length ∧ s.Laid text :=
  (row_statements table text).of_mem (List.mem_flatMap.mpr ⟨source, hsource, hs⟩)

theorem position_within_of_mem {source : Source} (h : source ∈ (read table text).sources) :
    source.position.Within 0 text.length := by
  simp only [read, List.map_map, List.mem_map, Function.comp_apply] at h
  obtain ⟨segment, hm, rfl⟩ := h
  rw [Source.ofSegment_eq]
  exact Source.position_within (row_sources text) segment hm

theorem problems_within (table : Table) (text : List Char) :
    ∀ q ∈ (read table text).problems, q.position.Within 0 text.length := by
  intro q hq
  rcases List.mem_append.mp hq with hq | hq
  · exact (marks_stripComments text).problems q hq
  · obtain ⟨read, hread, hq⟩ := List.mem_flatMap.mp hq
    obtain ⟨segment, hm, rfl⟩ := List.mem_map.mp hread
    obtain ⟨hs, hle⟩ := stands_of_mem_sources hm
    exact (Source.ofSegment_problems_within hs q hq).mono (Nat.zero_le _) hle

theorem covers_of_mem (h : (read table text).problems = []) {source : Source}
    (hsource : source ∈ (read table text).sources) {s : Statement} (hs : s ∈ source.statements) :
    ∃ left right, Segment.sides ⟨s.position.first, s.position.chars (stripComments text).chars⟩ =
        .ok (left, right) ∧
      ∀ i c, right.start ≤ i → i < right.stop → (stripComments text).chars[i]? = some c →
        isBlank c = false → ∃ n ∈ s.nodes, n.position.first ≤ i ∧ i ≤ n.position.last := by
  obtain ⟨scope, whole, hwhole, segment, hm, left, right, hne, hsides, heq, hp⟩ :=
    exists_ofSides hsource hs
  have hsegment := ((Segment.row_splitOuter (stands_of_mem_sources hwhole).1).of_mem hm).1
  have htrim := segment.stands_trim hsegment
  obtain ⟨hfirst, hlast⟩ := Segment.position_of_ne hne
  have hposition : s.position = segment.trim.position := by rw [heq]; rfl
  have hchars : s.position.chars (stripComments text).chars = segment.trim.chars := by
    rw [hposition]
    exact Stands.chars_eq (hfirst ▸ htrim) (by rw [hfirst, hlast, Segment.stop])
  refine ⟨left, right, ?_, ?_⟩
  · rw [hchars, hposition, hfirst]
    exact hsides
  · intro i c hlo hhi hc hb
    rw [h, List.subset_nil] at hp
    have htagged := Statement.taggedFrom_ofSides table scope segment.trim.position left right
    rw [← heq] at htagged
    unfold Statement.ofSides at hp
    simp only [List.append_eq_nil_iff, List.reverse_eq_nil_iff] at hp
    obtain ⟨n, hn, hcovered⟩ := Reading.covers_read (Segment.stands_sides htrim hsides).2.1
      hp.1.1.2 hc hb hlo hhi
    obtain ⟨-, hn', tags, -, rfl⟩ := forall₂_mem_right htagged.flip (List.mem_reverse.mpr hn)
    exact ⟨n.attach tags, hn', by cases n <;> exact hcovered⟩

end Document

/-- A value or a reference has the characters of the text at its position. A call has its name in
front, behind it the parameters in order, and its parentheses at their position, the closing one at
its end. -/
def Node.InText (text : List Char) : Node → Prop
  | .value raw _ p _ => p.chars text = raw.toList
  | .reference name p _ => p.chars text = name.toList
  | .call head params _ =>
    head.name.toList <+: text.drop head.position.first ∧
    (∀ q ∈ head.paren, q.Within 0 text.length ∧ text[q.first]? = some '(' ∧
      text[q.last]? = some ')' ∧ q.last = head.position.last) ∧
    (∀ a ∈ head.arguments, a.position.Within 0 text.length) ∧
    (∀ n ∈ params,
      n.position.Within (head.position.first + head.name.length) (head.position.last + 1)) ∧
    params.Pairwise fun n n' => n.position.last < n'.position.first

structure Node.Mapped (text : List Char) (n : Node) : Prop where
  within : n.position.Within 0 text.length
  tags : ∀ l ∈ n.tags, l.position.Within 0 text.length ∧ l.position.chars text = l.name.toList
  inText : n.InText text

theorem Node.Laid.mapped {text : List Char} {n : Node} (h : Laid text 0 text.length [n]) :
    n.Mapped text := by
  have hwithin := h.position_within n (by simp)
  cases h with
  | cons _ hn htags hparams _ =>
    refine ⟨hwithin, fun l hl => ⟨(htags l hl).within, (htags l hl).chars_eq⟩, ?_⟩
    cases n with
    | value raw v p tags => exact hn.chars_eq
    | reference name p tags => exact hn.chars_eq
    | call head params tags =>
      have hend := hwithin.lt
      refine ⟨?_, ?_, ?_, ?_, hparams.pairwise⟩
      · obtain ⟨before, after, hbefore, rfl⟩ := hn.opens.name
        rw [← hbefore, List.append_assoc, List.drop_left]
        exact List.prefix_append _ _
      · intro q hq
        obtain ⟨-, hlt, hlast, hopen, hclose⟩ := hn.paren q hq
        exact ⟨⟨Nat.zero_le _, hlt.le, hlast.trans_lt hend⟩, hopen, hclose, hlast⟩
      · intro a ha
        exact (hn.opens.arguments a ha).mono (Nat.zero_le _) hend
      · rw [← String.length_toList]
        exact hparams.position_within

structure Statement.Mapped (text : List Char) (s : Statement) : Prop where
  within : s.position.Within 0 text.length
  labels : ∀ l ∈ s.labels, l.position.Within 0 text.length ∧ l.position.chars text = l.name.toList
  nodes : ∀ n ∈ s.nodes, n.position.Within s.position.first (s.position.last + 1)
  ordered : s.nodes.Pairwise fun m m' => m.position.last < m'.position.first
  /-- Also the nodes inside of others. -/
  mapped : ∀ root ∈ s.nodes, ∀ n : Node, n.Occurs root → n.Mapped text

theorem Statement.Laid.mapped {text : List Char} {s : Statement} (h : s.Laid text)
    (hp : s.position.Within 0 text.length) : s.Mapped text := by
  refine ⟨hp, fun l hl => ⟨(h.labels l hl).1.within, (h.labels l hl).1.chars_eq⟩,
    h.nodes.position_within, h.nodes.pairwise, ?_⟩
  intro root hroot n ho
  have hlaid := (h.nodes.of_mem hroot).mono (Nat.zero_le _) hp.lt
  exact (hlaid.of_occurs ho).mapped

theorem Comment.Marks.chars_eq {text : List Char} {c : Comment} (h : c.Marks text) :
    c.position.chars text = c.text.toList :=
  h.stands.chars_eq h.length

theorem Comment.Marks.within {text : List Char} {c : Comment} (h : c.Marks text) :
    c.position.Within 0 text.length := by
  have hle := h.stands.le
  have hlen := h.length
  exact ⟨Nat.zero_le _, h.le, by omega⟩

theorem Node.Laid.unique {text : List Char} {lo hi i : Nat} {ns : List Node}
    (h : Laid text lo hi ns) {n : Node} (hn : n ∈ ns)
    (hat : n.position.first ≤ i ∧ i ≤ n.position.last) :
    ∃! k : Nat, ∃ m : Node, ns[k]? = some m ∧ m.position.first ≤ i ∧ i ≤ m.position.last := by
  obtain ⟨k, hk⟩ := List.getElem?_of_mem hn
  refine ⟨k, ⟨n, hk, hat⟩, ?_⟩
  rintro j ⟨m, hm, him⟩
  have hpair := List.pairwise_iff_getElem.mp h.pairwise
  obtain ⟨hklt, rfl⟩ := List.getElem?_eq_some_iff.mp hk
  obtain ⟨hjlt, rfl⟩ := List.getElem?_eq_some_iff.mp hm
  rcases Nat.lt_trichotomy j k with hlt | heq | hlt
  · have := hpair j k hjlt hklt hlt
    omega
  · exact heq
  · have := hpair k j hklt hjlt hlt
    omega

/-- Every position that is recorded for a text is in the text, with the characters that were read
there. Nodes do not overlap unless one is a parameter of the other, and if there are no problems
they cover everything but blanks on the right of each statement. -/
theorem Document.read_mapped (table : Table) (text : List Char) :
    (∀ q ∈ (read table text).problems, q.position.Within 0 text.length) ∧
    (∀ c ∈ (read table text).comments,
      c.position.Within 0 text.length ∧ c.position.chars text = c.text.toList) ∧
    (∀ source ∈ (read table text).sources, source.position.Within 0 text.length ∧
      ∀ s ∈ source.statements, s.Mapped text) ∧
    ((read table text).problems = [] →
      ∀ source ∈ (read table text).sources, ∀ s ∈ source.statements, ∃ left right,
        Segment.sides ⟨s.position.first, s.position.chars (stripComments text).chars⟩ =
          .ok (left, right) ∧
        ∀ i c, right.start ≤ i → i < right.stop → (stripComments text).chars[i]? = some c →
          isBlank c = false →
          ∃! k : Nat, ∃ n : Node, s.nodes[k]? = some n ∧
            n.position.first ≤ i ∧ i ≤ n.position.last) := by
  refine ⟨problems_within table text, ?_, ?_, ?_⟩
  · intro c hc
    have hm := (marks_stripComments text).comments c hc
    exact ⟨hm.within, hm.chars_eq⟩
  · intro source hsource
    refine ⟨position_within_of_mem hsource, fun s hs => ?_⟩
    obtain ⟨hwithin, hlaid⟩ := laid_of_mem hsource hs
    exact hlaid.mapped hwithin
  · intro hp source hsource s hs
    obtain ⟨left, right, hsides, hcovers⟩ := covers_of_mem hp hsource hs
    refine ⟨left, right, hsides, fun i c hlo hhi hc hb => ?_⟩
    obtain ⟨n, hn, hi⟩ := hcovers i c hlo hhi hc hb
    exact (laid_of_mem hsource hs).2.nodes.unique hn hi

theorem Document.read_mapped_commented :
    let text := "/* two */ a _: add(1 /* one */ mul(2 0x2)) 3, b: read-memory<0 1>(); : ;".toList
    let d := read Table.builtin text
    d.problems = [] ∧ d.comments.map (·.position) = [⟨0, 8⟩, ⟨21, 29⟩] ∧
      d.sources.map (·.statements.map (·.position)) = [[⟨10, 43⟩, ⟨46, 66⟩], [⟨69, 69⟩]] ∧
      (∀ c ∈ d.comments, c.position.chars text = c.text.toList) ∧
      ∀ source ∈ d.sources, ∀ s ∈ source.statements, s.Mapped text ∧ ∃ left right,
        Segment.sides ⟨s.position.first, s.position.chars (stripComments text).chars⟩ =
          .ok (left, right) := by
  intro text d
  have hd : d.problems = [] ∧ d.comments.map (·.position) = [⟨0, 8⟩, ⟨21, 29⟩] ∧
      d.sources.map (·.statements.map (·.position)) =
        [[⟨10, 43⟩, ⟨46, 66⟩], [⟨69, 69⟩]] := by
    decide +kernel
  obtain ⟨-, hcomments, hsources, hcovers⟩ := read_mapped Table.builtin text
  refine ⟨hd.1, hd.2.1, hd.2.2, fun c hc => (hcomments c hc).2, fun source hsource s hs => ?_⟩
  obtain ⟨left, right, hsides, -⟩ := hcovers hd.1 source hsource s hs
  exact ⟨(hsources source hsource).2 s hs, left, right, hsides⟩

end Wordcode
