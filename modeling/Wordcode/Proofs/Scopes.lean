import Mathlib
import Wordcode.Document.Scope

namespace Wordcode

/-- Whether the label gives later statements something to call `name`. -/
def Label.binds (name : String) (l : Label) : Bool :=
  l.isBindable && l.name == name

namespace Scope

def bound (labels : List Label) : List String :=
  (labels.filter (·.isBindable)).map (·.name)

def after (labels : List Label) : Scope :=
  ({} : Scope).declareAll labels

theorem declareAll_after (ls ms : List Label) : (after ls).declareAll ms = after (ls ++ ms) := by
  simp [after, declareAll]

theorem declare_after (ls : List Label) (l : Label) : (after ls).declare l = after (ls ++ [l]) := by
  simp [after, declareAll]

theorem bound_append (ls ms : List Label) : bound (ls ++ ms) = bound ls ++ bound ms := by
  simp [bound]

theorem mem_bound {name : String} {ls : List Label} :
    name ∈ bound ls ↔ ∃ l ∈ ls, l.binds name = true := by
  simp [bound, Label.binds, and_assoc]

theorem count_after (ls : List Label) : (after ls).count = ls.length := by
  induction ls using List.reverseRecOn with
  | nil => rfl
  | append_singleton ls l ih =>
    rw [← declare_after, List.length_append, ← ih]
    rfl

theorem contains_eq_isSome (s : Scope) (name : String) :
    s.contains name = (s.slot? name).isSome := by
  simp only [contains, slot?, Std.TreeMap.get?_eq_getElem?, Std.TreeMap.contains_eq_isSome_getElem?]

theorem slot?_declare (s : Scope) (l : Label) (name : String) :
    (s.declare l).slot? name =
      (s.slot? name).or (if l.binds name then some s.count else none) := by
  have hc := contains_eq_isSome s l.name
  cases hb : l.isBindable with
  | false => simp [declare, slot?, Label.binds, hb]
  | true =>
    cases hs : s.slot? l.name with
    | none =>
      simp only [slot?, Std.TreeMap.get?_eq_getElem?] at hs
      by_cases he : l.name = name
      · subst he
        simp [declare, slot?, Label.binds, hb, hc, hs]
      · simp [declare, slot?, Label.binds, hb, hc, hs, Std.TreeMap.getElem?_insert, he]
    | some slot =>
      simp only [slot?, Std.TreeMap.get?_eq_getElem?] at hs
      by_cases he : l.name = name
      · subst he
        simp [declare, slot?, hc, hs]
      · simp [declare, slot?, Label.binds, hc, hs, he]

/-- The slot of a name is the place of the first label that binds it. -/
theorem slot?_after (ls : List Label) (name : String) :
    (after ls).slot? name = ls.findIdx? (·.binds name) := by
  induction ls using List.reverseRecOn with
  | nil => simp [after, declareAll, slot?]
  | append_singleton ls l ih =>
    rw [← declare_after, slot?_declare, ih, count_after, List.findIdx?_append]
    by_cases hb : l.binds name = true
    · simp [hb]
    · simp [hb]

theorem contains_after {ls : List Label} {name : String} :
    (after ls).contains name = true ↔ name ∈ bound ls := by
  rw [contains_eq_isSome, slot?_after, List.findIdx?_isSome, mem_bound]
  simp

theorem binds_eq_beq {ls : List Label} {name : String} {slot : Nat}
    (h : (after ls).slot? name = some slot) :
    (fun l : Label => l.binds name) = fun l => l.name == name := by
  rw [slot?_after] at h
  obtain ⟨hl, hn, -⟩ := List.findIdx?_eq_some_iff_getElem.mp h
  simp only [Label.binds, Bool.and_eq_true, beq_iff_eq] at hn
  have hname := hn.1
  rw [Label.isBindable, hn.2] at hname
  funext m
  by_cases hm : m.name = name
  · simp [Label.binds, Label.isBindable, hm] at hname ⊢
    exact hname
  · simp [Label.binds, hm]

theorem idxOf_of_slot? {ls labels : List Label} (hp : ls <+: labels) {name : String} {slot : Nat}
    (h : (after ls).slot? name = some slot) : (labels.map (·.name)).idxOf name = slot := by
  have hb := binds_eq_beq h
  obtain ⟨more, rfl⟩ := hp
  rw [slot?_after, hb] at h
  have hs : ((ls ++ more).map (·.name)).findIdx? (· == name) = some slot := by
    rw [List.findIdx?_map, List.findIdx?_append]
    simp [Function.comp_def, h]
  exact (List.findIdx?_eq_some_iff_findIdx_eq.mp hs).2

theorem nodup_bound_concat {ls : List Label} {l : Label} (h : (bound ls).Nodup)
    (hl : ¬ (l.isBindable = true ∧ l.name ∈ bound ls)) : (bound (ls ++ [l])).Nodup := by
  rw [bound_append]
  by_cases hb : l.isBindable = true
  · have hone : bound [l] = [l.name] := by simp [bound, hb]
    have hnew : l.name ∉ bound ls := fun hm => hl ⟨hb, hm⟩
    rw [hone, ← List.concat_eq_append]
    exact h.concat hnew
  · have hnone : bound [l] = [] := by simp [bound, hb]
    rw [hnone, List.append_nil]
    exact h

private def checkDuplicate (s : Scope × List Problem) (l : Label) : Scope × List Problem :=
  (s.1.declare l,
    if l.isBindable && s.1.contains l.name then duplicate l :: s.2 else s.2)

private theorem duplicates_eq (s : Scope) (ls : List Label) :
    s.duplicates ls = (ls.foldl checkDuplicate (s, [])).2.reverse := rfl

private theorem checkDuplicate_nil {ls : List Label} {s : Scope} {ps : List Problem}
    (h : (ls.foldl checkDuplicate (s, ps)).2 = []) : ps = [] := by
  induction ls generalizing s ps with
  | nil => exact h
  | cons l ls ih =>
    have hp := ih h
    split at hp
    · simp at hp
    · exact hp

private theorem checkDuplicate_iff (ls ms : List Label) (h : (bound ls).Nodup) :
    (ms.foldl checkDuplicate (after ls, [])).2 = [] ↔ (bound (ls ++ ms)).Nodup := by
  induction ms generalizing ls with
  | nil => simpa using h
  | cons m ms ih =>
    by_cases hd : m.isBindable = true ∧ m.name ∈ bound ls
    · have hc : (m.isBindable && (after ls).contains m.name) = true := by
        simp [hd.1, contains_after.mpr hd.2]
      constructor
      · intro hn
        have hp := checkDuplicate_nil (s := (after ls).declare m) hn
        simp [hc] at hp
      · intro hn
        rw [bound_append] at hn
        have hm : m.name ∈ bound (m :: ms) := by
          rw [mem_bound]
          exact ⟨m, by simp, by simp [Label.binds, hd.1]⟩
        exact (List.disjoint_of_nodup_append hn hd.2 hm).elim
    · have hc : (m.isBindable && (after ls).contains m.name) = false := by
        rw [Bool.and_eq_false_iff]
        by_cases hb : m.isBindable = true
        · right
          rw [← Bool.not_eq_true, contains_after]
          exact fun hm => hd ⟨hb, hm⟩
        · left
          simpa using hb
      have hb := nodup_bound_concat h hd
      have hs : checkDuplicate (after ls, []) m = (after (ls ++ [m]), []) := by
        simp [checkDuplicate, hc, declare_after]
      rw [List.foldl_cons, hs, ih (ls ++ [m]) hb, List.append_assoc, List.singleton_append]

private theorem checkDuplicate_mem (ls : List Label) (s : Scope × List Problem) :
    ∀ q ∈ (ls.foldl checkDuplicate s).2, q ∈ s.2 ∨ ∃ l ∈ ls, q = duplicate l := by
  induction ls generalizing s with
  | nil => exact fun q hq => .inl hq
  | cons l ls ih =>
    intro q hq
    rcases ih (checkDuplicate s l) q hq with hq | ⟨m, hm, rfl⟩
    · unfold checkDuplicate at hq
      dsimp only at hq
      split at hq
      · rcases List.mem_cons.mp hq with rfl | hq
        · exact .inr ⟨l, by simp, rfl⟩
        · exact .inl hq
      · exact .inl hq
    · exact .inr ⟨m, by simp [hm], rfl⟩

theorem duplicates_mem {s : Scope} {ls : List Label} {q : Problem} (h : q ∈ s.duplicates ls) :
    ∃ l ∈ ls, q = duplicate l := by
  rw [duplicates_eq, List.mem_reverse] at h
  rcases checkDuplicate_mem ls (s, []) q h with hq | hq
  · cases hq
  · exact hq

theorem duplicates_eq_nil_iff {ls ms : List Label} (h : (bound ls).Nodup) :
    (after ls).duplicates ms = [] ↔ (bound (ls ++ ms)).Nodup := by
  rw [duplicates_eq, List.reverse_eq_nil_iff, checkDuplicate_iff ls ms h]

end Scope

end Wordcode
