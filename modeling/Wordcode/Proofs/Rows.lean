import Wordcode.Proofs.Places
import Wordcode.Proofs.Segmentation

namespace Wordcode

/-- Things with positions one behind the other between two indices, each of them good. -/
inductive InRow {α : Type} (place : α → Position) (Good : α → Prop) : Nat → Nat → List α → Prop
  | nil {lo hi : Nat} : lo ≤ hi → InRow place Good lo hi []
  | cons {lo hi : Nat} {a : α} {as : List α} : lo ≤ (place a).first →
      (place a).first ≤ (place a).last → Good a →
      InRow place Good ((place a).last + 1) hi as → InRow place Good lo hi (a :: as)

namespace InRow

variable {α : Type} {place : α → Position} {Good : α → Prop} {lo lo' hi hi' : Nat} {a : α}
  {as : List α}

theorem le (h : InRow place Good lo hi as) : lo ≤ hi := by
  induction h with
  | nil hle => exact hle
  | cons hlo hle _ _ ih => omega

theorem mono (h : InRow place Good lo hi as) (hlo : lo' ≤ lo) (hhi : hi ≤ hi') :
    InRow place Good lo' hi' as := by
  induction h generalizing lo' with
  | nil hle => exact .nil (by omega)
  | cons hfirst hle hgood _ ih => exact .cons (hlo.trans hfirst) hle hgood (ih (Nat.le_refl _) hhi)

theorem imp {Good' : α → Prop} (h : InRow place Good lo hi as) (himp : ∀ a, Good a → Good' a) :
    InRow place Good' lo hi as := by
  induction h with
  | nil hle => exact .nil hle
  | cons hlo hle hgood _ ih => exact .cons hlo hle (himp _ hgood) ih

theorem append {mid : Nat} {bs : List α} (h : InRow place Good lo mid as)
    (h' : InRow place Good mid hi bs) : InRow place Good lo hi (as ++ bs) := by
  induction h with
  | nil hle => exact h'.mono hle (Nat.le_refl _)
  | cons hlo hle hgood _ ih => exact .cons hlo hle hgood (ih h')

theorem of_mem (h : InRow place Good lo hi as) (ha : a ∈ as) :
    (place a).Within lo hi ∧ Good a := by
  induction h with
  | nil => cases ha
  | cons hlo hle hgood hrest ih =>
    have hhi := hrest.le
    rcases List.mem_cons.mp ha with rfl | ha
    · exact ⟨⟨hlo, hle, by omega⟩, hgood⟩
    · obtain ⟨hw, hg⟩ := ih ha
      exact ⟨hw.mono (by omega) (Nat.le_refl _), hg⟩

end InRow

namespace Segment

variable {text : List Char} {lo hi : Nat} {s : Segment} {ss : List Segment}

/-- Pieces of the text with one character between each and the next. -/
inductive Row (text : List Char) : Nat → Nat → List Segment → Prop
  | last {s : Segment} : Stands text s.start s.chars → Row text s.start s.stop [s]
  | cons {hi : Nat} {s : Segment} {ss : List Segment} : Stands text s.start s.chars →
      Row text (s.stop + 1) hi ss → Row text s.start hi (s :: ss)

theorem Row.ne_nil (h : Row text lo hi ss) : ss ≠ [] := by
  cases h <;> simp

theorem Row.le (h : Row text lo hi ss) : lo ≤ hi := by
  induction h with
  | last => exact Nat.le_add_right _ _
  | @cons _ s _ _ _ ih =>
    have hs : s.start ≤ s.stop := Nat.le_add_right _ _
    omega

theorem Row.of_mem (h : Row text lo hi ss) (hs : s ∈ ss) :
    Stands text s.start s.chars ∧ lo ≤ s.start ∧ s.stop ≤ hi := by
  induction h with
  | last h =>
    rw [List.mem_singleton.mp hs]
    exact ⟨h, Nat.le_refl _, Nat.le_refl _⟩
  | @cons _ t _ h hrest ih =>
    have ht : t.start ≤ t.stop := Nat.le_add_right _ _
    have hle := hrest.le
    rcases List.mem_cons.mp hs with rfl | hs
    · exact ⟨h, Nat.le_refl _, by omega⟩
    · obtain ⟨hstands, hlo, hhi⟩ := ih hs
      exact ⟨hstands, by omega, hhi⟩

theorem row_splitFrom {nest : Nat → Char → Nat} {mark : Char} {i depth start : Nat}
    {piece cs : List Char} (hpiece : Stands text start piece.reverse)
    (hlen : start + piece.length = i) (hcs : Stands text i cs) :
    Row text start (i + cs.length) (splitFrom nest mark i depth start piece [] cs) := by
  induction cs generalizing i depth start piece with
  | nil =>
    have h := Row.last (s := ⟨start, piece.reverse⟩) hpiece
    rw [stop, List.length_reverse, hlen] at h
    exact h
  | cons c cs ih =>
    obtain ⟨hc, hrest⟩ := Stands.cons_iff.mp hcs
    have hend : i + (c :: cs).length = i + 1 + cs.length := by
      rw [List.length_cons]
      omega
    rw [splitFrom, hend]
    split
    · have hnext : Stands text (i + 1) ([] : List Char).reverse :=
        .nil (by have := hrest.le; omega)
      rw [splitFrom_done, List.reverse_singleton, List.singleton_append]
      refine Row.cons (s := ⟨start, piece.reverse⟩) hpiece ?_
      rw [stop, List.length_reverse, hlen]
      exact ih hnext rfl hrest
    · refine ih ?_ (by rw [List.length_cons]; omega) hrest
      rw [List.reverse_cons, Stands.append_iff, List.length_reverse, hlen, Stands.singleton_iff]
      exact ⟨hpiece, hc⟩

theorem row_split {mark : Char} (h : Stands text s.start s.chars) :
    Row text s.start s.stop (s.split mark) :=
  row_splitFrom (.nil (by have := h.le; omega)) rfl h

theorem row_splitOuter {mark : Char} (h : Stands text s.start s.chars) :
    Row text s.start s.stop (s.splitOuter mark) :=
  row_splitFrom (.nil (by have := h.le; omega)) rfl h

theorem exists_trimEnd (cs : List Char) : ∃ tail, cs = trimEnd cs ++ tail := by
  refine ⟨(cs.reverse.takeWhile isBlank).reverse, ?_⟩
  rw [trimEnd, ← List.reverse_append, List.takeWhile_append_dropWhile, List.reverse_reverse]

theorem exists_trim (s : Segment) :
    ∃ tail, s.chars = s.chars.takeWhile isBlank ++ s.trim.chars ++ tail := by
  obtain ⟨tail, ht⟩ := exists_trimEnd (s.chars.dropWhile isBlank)
  refine ⟨tail, ?_⟩
  rw [List.append_assoc, trim, ← ht, List.takeWhile_append_dropWhile]

theorem stands_trim (h : Stands text s.start s.chars) : Stands text s.trim.start s.trim.chars := by
  obtain ⟨tail, ht⟩ := s.exists_trim
  rw [ht, Stands.append_iff, Stands.append_iff] at h
  exact h.1.2

theorem start_le_trim (s : Segment) : s.start ≤ s.trim.start :=
  Nat.le_add_right _ _

theorem trim_stop_le (s : Segment) : s.trim.stop ≤ s.stop := by
  obtain ⟨tail, ht⟩ := s.exists_trim
  have hl := congrArg List.length ht
  rw [List.length_append, List.length_append] at hl
  have hstart : s.trim.start = s.start + (s.chars.takeWhile isBlank).length := rfl
  unfold stop
  omega

theorem isBlank_of_isEmpty_trim (h : s.trim.isEmpty = true) : ∀ c ∈ s.chars, isBlank c = true := by
  rw [isEmpty, List.isEmpty_iff, trim, trimEnd, List.reverse_eq_nil_iff,
    List.dropWhile_eq_nil_iff] at h
  intro c hc
  rw [← List.takeWhile_append_dropWhile (p := isBlank) (l := s.chars), List.mem_append] at hc
  rcases hc with hc | hc
  · exact List.mem_takeWhile_imp hc
  · exact h c (List.mem_reverse.mpr hc)

theorem trim_start_of_isEmpty (h : s.trim.isEmpty = true) : s.trim.start = s.stop := by
  rw [trim, List.takeWhile_eq_self_iff.mpr (isBlank_of_isEmpty_trim h), stop]

theorem position_of_isEmpty (h : s.isEmpty = true) : s.position = .point s.start := by
  rw [isEmpty, List.isEmpty_iff] at h
  simp [position, stop, h, Position.point]

theorem position_of_ne (h : s.isEmpty = false) :
    s.position.first = s.start ∧ s.position.last + 1 = s.stop := by
  have hpos : 0 < s.chars.length := by
    rw [List.length_pos_iff]
    simpa [isEmpty] using h
  refine ⟨rfl, ?_⟩
  simp only [position, stop]
  omega

theorem position_within (h : s.isEmpty = false) : s.position.Within s.start s.stop := by
  have hp := position_of_ne h
  have hle : s.position.first ≤ s.position.last := Nat.le_max_right _ _
  exact ⟨hp.1.ge, hle, by omega⟩

theorem stands_sides {left right : Segment} (h : Stands text s.start s.chars)
    (hs : s.sides = .ok (left, right)) :
    Stands text left.start left.chars ∧ Stands text right.start right.chars ∧
      left.start = s.start ∧ left.stop + 1 = right.start ∧ right.stop = s.stop := by
  have hrow : Row text s.start s.stop (s.splitOuter ':') := row_splitOuter h
  unfold sides at hs
  split at hs
  · rename_i hsplit
    cases hs
    rw [hsplit] at hrow
    generalize hlo : s.start = lo, hhi : s.stop = hi at hrow
    cases hrow with
    | cons hleft hrow =>
      generalize hmid : left.stop + 1 = mid at hrow
      cases hrow with
      | last hright => exact ⟨hleft, hright, rfl, rfl, rfl⟩
      | cons _ hrow => exact absurd rfl hrow.ne_nil
  all_goals cases hs

theorem sides_error_position {q : Problem} (h : s.sides = .error q) : q.position = s.position := by
  unfold sides at h
  split at h
  all_goals cases h
  all_goals rfl

theorem dropBlankLast_singleton (s : Segment) :
    dropBlankLast [s] = if s.trim.isEmpty then [] else [s] :=
  rfl

theorem dropBlankLast_cons (hne : ss ≠ []) :
    dropBlankLast (s :: ss) = s :: dropBlankLast ss := by
  cases ss with
  | nil => exact absurd rfl hne
  | cons t ss =>
    unfold dropBlankLast
    rw [List.getLast?_cons_cons]
    cases (t :: ss).getLast? with
    | none => rfl
    | some last =>
      dsimp only
      split <;> rfl

end Segment

end Wordcode
