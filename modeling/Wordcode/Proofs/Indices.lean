import Wordcode.Document.Scanner.Span
import Wordcode.Proofs.Comments
import Wordcode.Proofs.Pieces

namespace Wordcode

namespace Checked

variable {α : Type}

theorem get_eq_pure {xs : Array α} {i : Nat} {x : α} (h : xs[i]? = some x) :
    get xs i = pure x := by
  rw [get, h]
  rfl

theorem sub_eq_pure {a b : Nat} (h : b ≤ a) : sub a b = pure (a - b) :=
  if_pos h

end Checked

namespace Scanner

/-- The characters from the index `i` up to the limit are `cs`. -/
structure Ahead (s : Scanner) (i : Nat) (cs : List Char) : Prop where
  stands : Stands s.text.toList i cs
  limit : i + cs.length = s.limit

variable {s : Scanner} {i : Nat} {c : Char} {cs ds : List Char}

theorem get_eq_of_stands (h : Stands s.text.toList i (c :: cs)) : s.get i = pure c := by
  refine Checked.get_eq_pure ?_
  rw [← Array.getElem?_toList]
  exact (Stands.cons_iff.mp h).1

theorem exists_ahead (hi : i ≤ s.limit) (hl : s.limit ≤ s.text.size) :
    s.Ahead i (s.text.extract i s.limit).toList := by
  have hsplit : s.text.toList = s.text.toList.take i ++ (s.text.extract i s.limit).toList ++
      s.text.toList.drop s.limit := by
    rw [Array.toList_extract, List.extract_eq_take_drop, List.append_assoc]
    conv_lhs =>
      rw [← List.take_append_drop i s.text.toList,
        ← List.take_append_drop (s.limit - i) (s.text.toList.drop i), List.drop_drop,
        Nat.add_sub_cancel' hi]
  refine ⟨⟨_, _, ?_, hsplit⟩, ?_⟩
  · rw [List.length_take, Array.length_toList]
    omega
  · rw [Array.length_toList, Array.size_extract]
    omega

namespace Ahead

theorem lt (h : s.Ahead i (c :: cs)) : i < s.limit := by
  have := h.limit
  rw [List.length_cons] at this
  omega

theorem not_lt (h : s.Ahead i []) : ¬ i < s.limit := by
  have := h.limit
  simp at this
  omega

theorem get (h : s.Ahead i (c :: cs)) : s.get i = pure c :=
  get_eq_of_stands h.stands

theorem append (h : s.Ahead i (ds ++ cs)) : s.Ahead (i + ds.length) cs := by
  refine ⟨(Stands.append_iff.mp h.stands).2, ?_⟩
  rw [← h.limit, List.length_append, Nat.add_assoc]

theorem tail (h : s.Ahead i (c :: cs)) : s.Ahead (i + 1) cs :=
  append (show s.Ahead i ([c] ++ cs) from h)

theorem slice (h : s.Ahead i (ds ++ cs)) :
    Checked.slice s.text i (i + ds.length) = pure ds := by
  have hstands := (Stands.append_iff.mp h.stands).1
  have hle : i + ds.length ≤ s.text.size := by simpa using hstands.le
  obtain ⟨before, after, rfl, htext⟩ := hstands
  have hextract : (s.text.extract before.length (before.length + ds.length)).toList = ds := by
    rw [Array.toList_extract, List.extract_eq_take_drop, htext]
    simp
  rw [Checked.slice, if_neg (by omega), if_neg (by omega), hextract]

theorem stands_eq (h : s.Ahead i cs) (c : Char) : s.stands c i = pure (cs.head? == some c) := by
  cases cs with
  | nil =>
    rw [Scanner.stands, if_neg h.not_lt]
    rfl
  | cons d cs =>
    rw [Scanner.stands, if_pos h.lt, h.get, pure_bind]
    rfl

theorem skip_eq {p : Char → Bool} (h : s.Ahead i (ds ++ cs)) (hd : ∀ c ∈ ds, p c = true)
    (hcs : ∀ c, cs.head? = some c → p c = false) : s.skip p i = pure (i + ds.length) := by
  induction ds generalizing i with
  | nil =>
    rw [List.nil_append] at h
    rw [skip]
    cases cs with
    | nil => exact if_neg h.not_lt
    | cons c cs =>
      rw [if_pos h.lt, h.get, pure_bind, hcs c rfl]
      rfl
  | cons d ds ih =>
    rw [List.cons_append] at h
    rw [skip, if_pos h.lt, h.get, pure_bind, if_pos (hd d (by simp)),
      ih h.tail fun c hc => hd c (by simp [hc]), List.length_cons, Nat.add_right_comm]
    rfl

theorem run_eq {p : Char → Bool} (h : s.Ahead i (ds ++ cs)) (hne : ds ≠ [])
    (hd : ∀ c ∈ ds, p c = true) (hcs : ∀ c, cs.head? = some c → p c = false) :
    s.run p i = pure (⟨String.ofList ds, ⟨i, i + ds.length - 1⟩⟩, i + ds.length) := by
  have hpos := List.length_pos_iff.mpr hne
  rw [run, h.skip_eq hd hcs, pure_bind, h.slice, pure_bind, Checked.sub_eq_pure (by omega),
    pure_bind]

end Ahead

theorem head?_dropWhile {p : Char → Bool} (h : (cs.dropWhile p).head? = some c) :
    p c = false := by
  have hp := List.head?_dropWhile_not p cs
  rwa [h] at hp

theorem exists_run (p : Char → Bool) (cs : List Char) :
    ∃ ds rest, cs = ds ++ rest ∧ (∀ c ∈ ds, p c = true) ∧
      ∀ c, rest.head? = some c → p c = false :=
  ⟨cs.takeWhile p, cs.dropWhile p, List.takeWhile_append_dropWhile.symm,
    fun _ => List.mem_takeWhile_imp, fun _ => head?_dropWhile⟩

theorem exists_run_cons (p : Char → Bool) (hc : p c = true) (cs : List Char) :
    ∃ ds rest, c :: cs = ds ++ rest ∧ ds ≠ [] ∧ (∀ c ∈ ds, p c = true) ∧
      ∀ c, rest.head? = some c → p c = false := by
  obtain ⟨ds, rest, rfl, hds, hrest⟩ := exists_run p cs
  refine ⟨c :: ds, rest, rfl, List.cons_ne_nil c ds, ?_, hrest⟩
  exact List.forall_mem_cons.mpr ⟨hc, hds⟩

end Scanner

end Wordcode
