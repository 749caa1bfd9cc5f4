import Wordcode.Proofs.Rows

namespace Wordcode

namespace Stands

variable {text cs ds : List Char} {i j : Nat} {c : Char}

theorem mem (h : Stands text i cs) (hlo : i ≤ j) (hhi : j < i + cs.length)
    (hc : text[j]? = some c) : c ∈ cs := by
  obtain ⟨m, rfl⟩ := Nat.exists_eq_add_of_le hlo
  have hm : m < cs.length := by omega
  rw [h.getElem? (List.getElem?_eq_getElem hm), Option.some.injEq] at hc
  exact hc ▸ List.getElem_mem hm

theorem eq_of_length (h : Stands text i cs) (h' : Stands text i ds)
    (hlen : cs.length = ds.length) : cs = ds := by
  obtain ⟨before, after, rfl, rfl⟩ := h
  obtain ⟨before', after', hbefore, heq⟩ := h'
  rw [List.append_assoc, List.append_assoc] at heq
  exact (List.append_inj (List.append_inj heq hbefore.symm).2 hlen).1

end Stands

namespace Segment

variable {nest : Nat → Char → Nat} {mark : Char} {cs : List Char} {i : Nat} {ss : List Segment}

theorem exists_outer (nest : Nat → Char → Nat) (mark : Char) (depth : Nat) (cs : List Char) :
    (∀ k, ¬ Outer nest mark depth cs k) ∨
      ∃ first rest, cs = first ++ mark :: rest ∧ (∀ k, ¬ Outer nest mark depth first k) ∧
        first.foldl nest depth = 0 := by
  have hnil : ∀ depth k, ¬ Outer nest mark depth [] k := by simp [Outer]
  induction cs generalizing depth with
  | nil => exact .inl (hnil depth)
  | cons c cs ih =>
    by_cases hcut : c = mark ∧ depth = 0
    · obtain ⟨rfl, rfl⟩ := hcut
      exact .inr ⟨[], cs, rfl, hnil 0, rfl⟩
    · have hcons : ∀ ds : List Char, (∀ k, ¬ Outer nest mark (nest depth c) ds k) →
          ∀ k, ¬ Outer nest mark depth (c :: ds) k := by
        intro ds hds k hk
        cases k with
        | zero => exact hcut ⟨by simpa using hk.1, hk.2⟩
        | succ k => exact hds k hk
      rcases ih (nest depth c) with hno | ⟨first, rest, rfl, hno, hdepth⟩
      · exact .inl (hcons cs hno)
      · exact .inr ⟨c :: first, rest, rfl, hcons first hno, hdepth⟩

/-- A text from index `i` on is cut at marks at depth zero into pieces that have no such marks. -/
inductive Cuts (nest : Nat → Char → Nat) (mark : Char) : Nat → List Char → List Segment → Prop
  | last {i : Nat} {cs : List Char} : (∀ k, ¬ Outer nest mark 0 cs k) →
      Cuts nest mark i cs [⟨i, cs⟩]
  | cons {i : Nat} {first rest : List Char} {ss : List Segment} :
      (∀ k, ¬ Outer nest mark 0 first k) → first.foldl nest 0 = 0 →
      Cuts nest mark (i + first.length + 1) rest ss →
      Cuts nest mark i (first ++ mark :: rest) (⟨i, first⟩ :: ss)

theorem cuts_splitFrom (nest : Nat → Char → Nat) (mark : Char) (i : Nat) (cs : List Char) :
    Cuts nest mark i cs (splitFrom nest mark i 0 i [] [] cs) := by
  induction hn : cs.length using Nat.strong_induction_on generalizing i cs with
  | _ n ih =>
  rcases exists_outer nest mark 0 cs with hno | ⟨first, rest, rfl, hno, hdepth⟩
  · have hsplit := splitFrom_inner hno i i [] [] []
    rw [List.append_nil, List.append_nil] at hsplit
    rw [hsplit, splitFrom, List.reverse_reverse]
    exact .last hno
  · rw [List.length_append, List.length_cons] at hn
    rw [splitFrom_inner hno, hdepth, splitFrom, if_pos (by simp), splitFrom_done,
      List.append_nil, List.reverse_reverse]
    exact .cons hno hdepth (ih rest.length (by omega) _ rest rfl)

namespace Cuts

theorem ne_nil (h : Cuts nest mark i cs ss) : ss ≠ [] := by
  cases h <;> simp

theorem intercalate_eq (h : Cuts nest mark i cs ss) :
    [mark].intercalate (ss.map (·.chars)) = cs := by
  induction h with
  | last => exact List.intercalate_singleton
  | @cons i first rest ss _ _ hrest ih =>
    obtain ⟨s, ss, rfl⟩ := List.exists_cons_of_ne_nil hrest.ne_nil
    rw [List.map_cons, List.map_cons, List.intercalate_cons_cons, ← List.map_cons, ih]
    simp

theorem not_outer (h : Cuts nest mark i cs ss) :
    ∀ s ∈ ss, ∀ k, ¬ Outer nest mark 0 s.chars k := by
  induction h with
  | last hno => simpa using hno
  | cons hno _ _ ih => exact List.forall_mem_cons.mpr ⟨hno, ih⟩

end Cuts

theorem outer_append_iff (hmark : nest 0 mark = 0) {first : List Char}
    (hno : ∀ k, ¬ Outer nest mark 0 first k) (hdepth : first.foldl nest 0 = 0)
    (rest : List Char) (k : Nat) :
    Outer nest mark 0 (first ++ mark :: rest) k ↔
      k = first.length ∨ ∃ m, k = first.length + 1 + m ∧ Outer nest mark 0 rest m := by
  rcases Nat.lt_trichotomy k first.length with hlt | rfl | hgt
  · have hsame : Outer nest mark 0 (first ++ mark :: rest) k ↔ Outer nest mark 0 first k := by
      rw [Outer, Outer, List.getElem?_append_left hlt, List.take_append_of_le_length hlt.le]
    rw [hsame]
    refine iff_of_false (hno k) ?_
    rintro (rfl | ⟨m, rfl, -⟩)
    · omega
    · omega
  · refine iff_of_true ⟨?_, ?_⟩ (.inl rfl)
    · simp
    · rw [List.take_left, hdepth]
  · obtain ⟨m, rfl⟩ := Nat.exists_eq_add_of_lt hgt
    have hindex : first.length + m + 1 = first.length + (m + 1) := by omega
    have hsame : Outer nest mark 0 (first ++ mark :: rest) (first.length + m + 1) ↔
        Outer nest mark 0 rest m := by
      rw [Outer, Outer, hindex, List.getElem?_append_right (by omega), Nat.add_sub_cancel_left,
        List.take_length_add_append, List.foldl_append, hdepth, List.getElem?_cons_succ,
        List.take_succ_cons, List.foldl_cons, hmark]
    rw [hsame]
    constructor
    · intro h
      exact .inr ⟨m, by omega, h⟩
    · rintro (h | ⟨m', h, hm'⟩)
      · omega
      · obtain rfl : m = m' := by omega
        exact hm'

theorem Cuts.exists_two_iff (hmark : nest 0 mark = 0) (h : Cuts nest mark i cs ss) :
    (∃ left right, ss = [left, right]) ↔ ∃! k, Outer nest mark 0 cs k := by
  cases h with
  | last hno =>
    refine iff_of_false (by simp) ?_
    rintro ⟨k, hk, -⟩
    exact hno k hk
  | @cons _ first rest ss hno hdepth hrest =>
    have houter := outer_append_iff hmark hno hdepth rest
    cases hrest with
    | last hlast =>
      refine iff_of_true ⟨_, _, rfl⟩ ⟨first.length, (houter _).mpr (.inl rfl), ?_⟩
      intro k hk
      rcases (houter k).mp hk with rfl | ⟨m, -, hm⟩
      · rfl
      · exact absurd hm (hlast m)
    | @cons _ second rest ss hsecond hdepth' hrest =>
      obtain ⟨s, ss, rfl⟩ := List.exists_cons_of_ne_nil hrest.ne_nil
      refine iff_of_false (by simp) ?_
      rintro ⟨k, -, hunique⟩
      have hfirst := hunique first.length ((houter _).mpr (.inl rfl))
      have hmark' := (outer_append_iff hmark hsecond hdepth' rest _).mpr (.inl rfl)
      have hnext := hunique _ ((houter _).mpr (.inr ⟨second.length, rfl, hmark'⟩))
      omega

theorem Cuts.le_start (h : Cuts nest mark i cs ss) : ∀ s ∈ ss, i ≤ s.start := by
  induction h with
  | last => simp
  | cons _ _ _ ih =>
    refine List.forall_mem_cons.mpr ⟨Nat.le_refl _, ?_⟩
    intro s hs
    have hle := ih s hs
    omega

theorem Cuts.pairwise (h : Cuts nest mark i cs ss) :
    ss.Pairwise fun s t => s.stop < t.start := by
  induction h with
  | last => exact List.pairwise_singleton _ _
  | cons _ _ hrest ih => exact .cons (fun s hs => hrest.le_start s hs) ih

theorem Cuts.exists_last (h : Cuts nest mark i cs ss) :
    ∃ init last, ss = init ++ [last] ∧ last.stop = i + cs.length := by
  induction h with
  | last => exact ⟨[], _, rfl, rfl⟩
  | @cons i first rest ss _ _ _ ih =>
    obtain ⟨init, last, rfl, hstop⟩ := ih
    refine ⟨⟨i, first⟩ :: init, last, rfl, ?_⟩
    rw [hstop, List.length_append, List.length_cons]
    omega

/-- A longest piece of the text without the mark: before it and behind it there is a mark or
nothing. -/
structure IsPiece (mark : Char) (text : List Char) (s : Segment) : Prop where
  stands : Stands text s.start s.chars
  free : mark ∉ s.chars
  before : ∀ j c, j + 1 = s.start → text[j]? = some c → c = mark
  behind : ∀ c, text[s.stop]? = some c → c = mark

namespace IsPiece

variable {text : List Char} {s t : Segment}

theorem stop_le (h : IsPiece mark text s) : s.stop ≤ text.length :=
  h.stands.le

theorem stop_lt (h : IsPiece mark text s) (h' : IsPiece mark text t) (hlt : s.start < t.start) :
    s.stop < t.start := by
  by_contra hle
  obtain ⟨j, hj⟩ := Nat.exists_eq_add_of_lt hlt
  have hstart : t.start ≤ t.stop := Nat.le_add_right _ _
  have hlen : s.start + j < text.length := by
    have := h'.stop_le
    omega
  have hc := List.getElem?_eq_getElem hlen
  have hmark := h'.before _ _ hj.symm hc
  refine h.free (hmark ▸ h.stands.mem (Nat.le_add_right _ _) ?_ hc)
  unfold stop at hle
  omega

theorem stop_le_of_start (h : IsPiece mark text s) (h' : IsPiece mark text t)
    (hstart : s.start = t.start) : t.stop ≤ s.stop := by
  by_contra hlt
  have hlen : s.stop < text.length := by
    have := h'.stop_le
    omega
  have hc := List.getElem?_eq_getElem hlen
  have hmark := h.behind _ hc
  refine h'.free (hmark ▸ h'.stands.mem ?_ (Nat.not_le.mp hlt) hc)
  rw [← hstart]
  exact Nat.le_add_right _ _

theorem eq_of_start (h : IsPiece mark text s) (h' : IsPiece mark text t)
    (hstart : s.start = t.start) : s = t := by
  have hstop : s.stop = t.stop :=
    Nat.le_antisymm (h'.stop_le_of_start h hstart.symm) (h.stop_le_of_start h' hstart)
  obtain ⟨i, cs⟩ := s
  obtain ⟨j, ds⟩ := t
  obtain rfl : i = j := hstart
  rw [Segment.mk.injEq]
  refine ⟨rfl, h.stands.eq_of_length h'.stands ?_⟩
  simpa [stop] using hstop

end IsPiece

theorem notMem_of_not_outer (h : ∀ k, ¬ Outer (fun depth _ => depth) mark 0 cs k) :
    mark ∉ cs := by
  intro hm
  obtain ⟨k, hk⟩ := List.mem_iff_getElem?.mp hm
  exact h k ⟨hk, List.foldl_fixed _⟩

theorem Cuts.mem_iff {text : List Char} (h : Cuts (fun depth _ => depth) mark i cs ss)
    (hcs : Stands text i cs) (hend : i + cs.length = text.length)
    (hbefore : ∀ j c, j + 1 = i → text[j]? = some c → c = mark) {s : Segment} :
    s ∈ ss ↔ IsPiece mark text s ∧ i ≤ s.start := by
  induction h with
  | @last i cs hno =>
    have hpiece : IsPiece mark text ⟨i, cs⟩ := by
      refine ⟨hcs, notMem_of_not_outer hno, hbefore, ?_⟩
      intro c hc
      rw [stop, hend, List.getElem?_eq_none (Nat.le_refl _)] at hc
      cases hc
    rw [List.mem_singleton]
    constructor
    · rintro rfl
      exact ⟨hpiece, Nat.le_refl _⟩
    · rintro ⟨hs, hle⟩
      refine hs.eq_of_start hpiece (Nat.le_antisymm (Nat.not_lt.mp fun hlt => ?_) hle)
      have hstop : i + cs.length < s.start := hpiece.stop_lt hs hlt
      have hstart : s.start ≤ s.stop := Nat.le_add_right _ _
      have hlen := hs.stop_le
      omega
  | @cons i first rest ss hno _ hrest ih =>
    rw [Stands.append_iff, Stands.cons_iff] at hcs
    obtain ⟨hfirst, hmark, hstands⟩ := hcs
    rw [List.length_append, List.length_cons] at hend
    have hpiece : IsPiece mark text ⟨i, first⟩ := by
      refine ⟨hfirst, notMem_of_not_outer hno, hbefore, ?_⟩
      intro c hc
      rw [stop, hmark, Option.some.injEq] at hc
      exact hc.symm
    have hnext : ∀ j c, j + 1 = i + first.length + 1 → text[j]? = some c → c = mark := by
      intro j c hj hc
      obtain rfl : j = i + first.length := by omega
      rw [hmark, Option.some.injEq] at hc
      exact hc.symm
    rw [List.mem_cons, ih hstands (by omega) hnext]
    constructor
    · rintro (rfl | ⟨hs, hle⟩)
      · exact ⟨hpiece, Nat.le_refl _⟩
      · exact ⟨hs, by omega⟩
    · rintro ⟨hs, hle⟩
      rcases Nat.eq_or_lt_of_le hle with heq | hlt
      · exact .inl (hs.eq_of_start hpiece heq.symm)
      · exact .inr ⟨hs, hpiece.stop_lt hs hlt⟩

theorem isEmpty_trim_iff {s : Segment} :
    s.trim.isEmpty = true ↔ ∀ c ∈ s.chars, isBlank c = true := by
  refine ⟨isBlank_of_isEmpty_trim, ?_⟩
  intro h
  rw [isEmpty, trim, List.dropWhile_eq_nil_iff.mpr h]
  rfl

theorem dropBlankLast_concat (init : List Segment) (last : Segment) :
    dropBlankLast (init ++ [last]) = if last.trim.isEmpty then init else init ++ [last] := by
  simp [dropBlankLast]

theorem sides_eq_ok_iff {s left right : Segment} :
    s.sides = .ok (left, right) ↔ s.splitOuter ':' = [left, right] := by
  unfold sides
  split
  · rename_i l r hsplit
    simp [hsplit]
  · rename_i hsplit
    simp [hsplit]
  · rename_i hsplit
    simp [hsplit]
  · rename_i hne _ _
    exact iff_of_false nofun fun h => hne _ _ h

theorem cuts_split (mark : Char) (text : List Char) :
    Cuts (fun depth _ => depth) mark 0 text (split mark ⟨0, text⟩) :=
  cuts_splitFrom (fun depth _ => depth) mark 0 text

theorem mem_split_iff {text : List Char} {s : Segment} :
    s ∈ split mark ⟨0, text⟩ ↔ IsPiece mark text s :=
  ((cuts_split mark text).mem_iff (.self text) (Nat.zero_add _) nofun).trans
    (and_iff_left (Nat.zero_le _))

theorem exists_sources (text : List Char) :
    ∃ init last, split ';' ⟨0, text⟩ = init ++ [last] ∧ last.stop = text.length ∧
      sources text = if last.chars.all isBlank then init else init ++ [last] := by
  obtain ⟨init, last, hsplit, hstop⟩ := (cuts_split ';' text).exists_last
  refine ⟨init, last, hsplit, hstop.trans (Nat.zero_add _), ?_⟩
  have hblank : last.trim.isEmpty = last.chars.all isBlank := by
    rw [Bool.eq_iff_iff, isEmpty_trim_iff, List.all_eq_true]
  rw [sources, hsplit, dropBlankLast_concat, hblank]

theorem mem_sources_iff {text : List Char} {s : Segment} :
    s ∈ sources text ↔ IsPiece ';' text s ∧
      (s.stop = text.length → ∃ c ∈ s.chars, isBlank c = false) := by
  obtain ⟨init, last, hsplit, hstop, hsources⟩ := exists_sources text
  have hpairwise := (cuts_split ';' text).pairwise
  rw [hsplit] at hpairwise
  have hinit : ∀ t ∈ init, t.stop < text.length := by
    intro t ht
    have hlt := (List.pairwise_append.mp hpairwise).2.2 t ht last (by simp)
    have hle : last.start ≤ last.stop := Nat.le_add_right _ _
    omega
  rw [← mem_split_iff, hsplit, hsources, List.mem_append, List.mem_singleton]
  split
  · rename_i hblank
    constructor
    · intro hs
      exact ⟨.inl hs, fun hlast => absurd (hinit s hs) (by omega)⟩
    · rintro ⟨hs | rfl, hsolid⟩
      · exact hs
      · obtain ⟨c, hc, hne⟩ := hsolid hstop
        rw [List.all_eq_true.mp hblank c hc] at hne
        cases hne
  · rename_i hsolid
    rw [List.mem_append, List.mem_singleton]
    refine (and_iff_left_of_imp ?_).symm
    rintro (hs | rfl) hlast
    · exact absurd (hinit s hs) (by omega)
    · simpa using hsolid

theorem pairwise_sources (text : List Char) :
    (sources text).Pairwise fun s t => s.stop < t.start := by
  obtain ⟨init, last, hsplit, -, hsources⟩ := exists_sources text
  refine (cuts_split ';' text).pairwise.sublist ?_
  rw [hsplit, hsources]
  split
  · exact List.sublist_append_left _ _
  · exact List.Sublist.refl _

theorem intercalate_sources (text : List Char) :
    ∃ last, IsPiece ';' text last ∧ last.stop = text.length ∧
      [';'].intercalate ((sources text).map (·.chars) ++
        if last.chars.all isBlank then [last.chars] else []) = text := by
  obtain ⟨init, last, hsplit, hstop, hsources⟩ := exists_sources text
  have hjoin := (cuts_split ';' text).intercalate_eq
  rw [hsplit] at hjoin
  refine ⟨last, mem_split_iff.mp (by simp [hsplit]), hstop, ?_⟩
  rw [hsources]
  split
  · rwa [List.map_append] at hjoin
  · rwa [List.append_nil]

/-- The character at index `k` is a mark outside of all parentheses. The depth is counted from the
start of the text and does not fall below zero. -/
def IsOuter (mark : Char) (cs : List Char) (k : Nat) : Prop :=
  cs[k]? = some mark ∧ (cs.take k).foldl parens 0 = 0

theorem sides_of_outer (s : Segment) :
    ((∃ left right, s.sides = .ok (left, right)) ↔ ∃! k, IsOuter ':' s.chars k) ∧
      ∀ left right, s.sides = .ok (left, right) →
        left.chars ++ ':' :: right.chars = s.chars ∧
          (∀ k, ¬ IsOuter ':' left.chars k) ∧ ∀ k, ¬ IsOuter ':' right.chars k := by
  have hcuts : Cuts parens ':' s.start s.chars (s.splitOuter ':') :=
    cuts_splitFrom parens ':' s.start s.chars
  simp only [sides_eq_ok_iff]
  refine ⟨hcuts.exists_two_iff rfl, ?_⟩
  intro left right hsplit
  rw [hsplit] at hcuts
  exact ⟨by simpa using hcuts.intercalate_eq, hcuts.not_outer left (by simp),
    hcuts.not_outer right (by simp)⟩

/-- A text is cut into sources, sources into statements and statements into sides, and nothing is
lost. All depths are counted from the start of a piece, as if it were the whole text. -/
theorem sources_statements_sides (text : List Char) :
    (∀ s, s ∈ sources text ↔ IsPiece ';' text s ∧
        (s.stop = text.length → ∃ c ∈ s.chars, isBlank c = false)) ∧
      (sources text).Pairwise (fun s t => s.stop < t.start) ∧
      (∃ last, IsPiece ';' text last ∧ last.stop = text.length ∧
        [';'].intercalate ((sources text).map (·.chars) ++
          if last.chars.all isBlank then [last.chars] else []) = text) ∧
      ∀ source ∈ sources text,
        [','].intercalate (source.statements.map (·.chars)) = source.chars ∧
          ∀ piece ∈ source.statements, Stands text piece.start piece.chars ∧
            (∀ k, ¬ IsOuter ',' piece.chars k) ∧
            (piece.trim.isEmpty = false →
              ((∃ left right, piece.trim.sides = .ok (left, right)) ↔
                ∃! k, IsOuter ':' piece.trim.chars k) ∧
              ∀ left right, piece.trim.sides = .ok (left, right) →
                left.chars ++ ':' :: right.chars = piece.trim.chars ∧
                  (∀ k, ¬ IsOuter ':' left.chars k) ∧ ∀ k, ¬ IsOuter ':' right.chars k) := by
  refine ⟨fun s => mem_sources_iff, pairwise_sources text, intercalate_sources text, ?_⟩
  intro source hsource
  have hstands := (mem_sources_iff.mp hsource).1.stands
  have hcuts : Cuts parens ',' source.start source.chars source.statements :=
    cuts_splitFrom parens ',' source.start source.chars
  refine ⟨hcuts.intercalate_eq, ?_⟩
  intro piece hpiece
  exact ⟨((row_splitOuter hstands).of_mem hpiece).1, hcuts.not_outer piece hpiece,
    fun _ => sides_of_outer piece.trim⟩

end Segment

end Wordcode
