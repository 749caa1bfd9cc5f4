import Wordcode.Document.Comment
import Wordcode.Proofs.Spelling

namespace Wordcode

theorem stripFrom_of_notMem {cs : List Char} (h : '*' ∉ cs) (i : Nat) (done : Stripped) :
    stripFrom i none done cs = { done with chars := cs.reverse ++ done.chars }.reverse := by
  induction cs generalizing i done with
  | nil => rfl
  | cons c cs ih =>
    have hc : c ≠ '*' := fun he => h (by simp [he])
    have hcs : '*' ∉ cs := fun hm => h (by simp [hm])
    have hstep : stripFrom i none done (c :: cs) = stripFrom (i + 1) none (done.push c) cs := by
      rw [stripFrom.eq_4]
      · intro rest he
        exact absurd he hc
      · rintro rest rfl rfl
        simp at hcs
    rw [hstep, ih hcs]
    simp [Stripped.push]

theorem stripComments_of_notMem {text : List Char} (h : '*' ∉ text) :
    stripComments text = ⟨text, [], []⟩ := by
  rw [stripComments, stripFrom_of_notMem h]
  simp [Stripped.reverse]

theorem trimEnd_append_cons {c : Char} (h : isBlank c = false) (cs ds : List Char) :
    trimEnd (cs ++ c :: ds) = cs ++ c :: trimEnd ds := by
  have hr : (cs ++ c :: ds).reverse = ds.reverse ++ c :: cs.reverse := by simp
  rw [trimEnd, trimEnd, hr, List.dropWhile_append]
  split
  · rename_i he
    rw [List.isEmpty_iff] at he
    simp [he, h]
  · simp

theorem trimEnd_of_solid {cs : List Char} {c : Char} (h : isBlank c = false) :
    trimEnd (cs ++ [c]) = cs ++ [c] := by
  rw [trimEnd_append_cons h]
  rfl

namespace Segment

variable {nest : Nat → Char → Nat} {mark : Char}

/-- The character at index `k` is a mark, and the depth before it is zero if the text starts with
the given one. -/
def Outer (nest : Nat → Char → Nat) (mark : Char) (depth : Nat) (cs : List Char) (k : Nat) : Prop :=
  cs[k]? = some mark ∧ (cs.take k).foldl nest depth = 0

theorem splitFrom_inner {cs : List Char} {depth : Nat} (h : ∀ k, ¬ Outer nest mark depth cs k)
    (i start : Nat) (piece : List Char) (done : List Segment) (rest : List Char) :
    splitFrom nest mark i depth start piece done (cs ++ rest) =
      splitFrom nest mark (i + cs.length) (cs.foldl nest depth) start (cs.reverse ++ piece) done
        rest := by
  induction cs generalizing i depth piece with
  | nil => rfl
  | cons c cs ih =>
    have hc : ¬ (c == mark && depth == 0) = true := by
      simp only [Bool.and_eq_true, beq_iff_eq]
      rintro ⟨rfl, rfl⟩
      exact h 0 ⟨rfl, rfl⟩
    have hcs : ∀ k, ¬ Outer nest mark (nest depth c) cs k := fun k hk => h (k + 1) hk
    rw [List.cons_append, splitFrom, if_neg hc, ih hcs]
    simp [Nat.add_assoc, Nat.add_comm 1]

theorem splitFrom_append {cs : List Char} (h : mark ∉ cs) (i depth start : Nat)
    (piece : List Char) (done : List Segment) (rest : List Char) :
    splitFrom nest mark i depth start piece done (cs ++ rest) =
      splitFrom nest mark (i + cs.length) (cs.foldl nest depth) start (cs.reverse ++ piece) done
        rest :=
  splitFrom_inner (fun _ hk => h (List.mem_of_getElem? hk.1)) i start piece done rest

theorem splitFrom_done (i depth start : Nat) (piece : List Char) (done : List Segment)
    (cs : List Char) :
    splitFrom nest mark i depth start piece done cs =
      done.reverse ++ splitFrom nest mark i depth start piece [] cs := by
  induction cs generalizing i depth start piece done with
  | nil => simp [splitFrom]
  | cons c cs ih =>
    rw [splitFrom, splitFrom]
    split
    · rw [ih, ih (i + 1) depth (i + 1) [] [_]]
      simp
    · exact ih _ _ _ _ _

theorem chars_splitFrom {piece : List Char} {pieces : List (List Char)}
    (h : ∀ p ∈ piece :: pieces, mark ∉ p ∧ p.foldl nest 0 = 0) (i start : Nat) :
    (splitFrom nest mark i 0 start [] [] ([mark].intercalate (piece :: pieces))).map (·.chars) =
      piece :: pieces := by
  induction pieces generalizing piece i start with
  | nil =>
    have hp := (h piece (by simp)).1
    have hs : splitFrom nest mark i 0 start [] [] (piece ++ []) = _ :=
      splitFrom_append hp i 0 start [] [] []
    rw [List.append_nil] at hs
    rw [List.intercalate_singleton, hs]
    simp [splitFrom]
  | cons next pieces ih =>
    obtain ⟨hp, hd⟩ := h piece (by simp)
    have hrest : ∀ p ∈ next :: pieces, mark ∉ p ∧ p.foldl nest 0 = 0 :=
      fun p hm => h p (List.mem_cons_of_mem _ hm)
    rw [List.intercalate_cons_cons, List.append_assoc, List.singleton_append,
      splitFrom_append hp, hd, splitFrom, if_pos (by simp), splitFrom_done]
    simp [ih hrest]

theorem chars_splitOuter {segment : Segment} {piece : List Char} {pieces : List (List Char)}
    (h : ∀ p ∈ piece :: pieces, mark ∉ p ∧ p.foldl parens 0 = 0)
    (hs : segment.chars = [mark].intercalate (piece :: pieces)) :
    (segment.splitOuter mark).map (·.chars) = piece :: pieces := by
  rw [splitOuter, hs]
  exact chars_splitFrom h _ _

end Segment

def leading (c : Char) : List (List Char) → List (List Char)
  | [] => []
  | piece :: pieces => piece :: pieces.map (c :: ·)

theorem intercalate_leading (mark c : Char) (pieces : List (List Char)) :
    [mark, c].intercalate pieces = [mark].intercalate (leading c pieces) := by
  induction pieces with
  | nil => rfl
  | cons piece pieces ih =>
    cases pieces with
    | nil => simp [leading]
    | cons next pieces =>
      rw [List.intercalate_cons_cons, ih]
      simp [leading, List.intercalate_cons_cons_left, List.intercalate_cons_cons]

theorem intercalate_ended (mark c : Char) (pieces : List (List Char)) :
    [c].intercalate (pieces.map (· ++ [mark])) =
      [mark].intercalate (leading c pieces ++ [[]]) := by
  induction pieces with
  | nil => rfl
  | cons piece pieces ih =>
    cases pieces with
    | nil => simp [leading, List.intercalate_cons_cons]
    | cons next pieces =>
      rw [List.map_cons] at ih
      rw [List.map_cons, List.map_cons, List.intercalate_cons_cons, ih]
      simp [leading, List.intercalate_cons_cons_left, List.intercalate_cons_cons]

theorem notMem_intercalate {x : Char} {sep : List Char} {pieces : List (List Char)} (hs : x ∉ sep)
    (h : ∀ p ∈ pieces, x ∉ p) : x ∉ sep.intercalate pieces := by
  induction pieces with
  | nil => simp
  | cons p pieces ih =>
    have hp := h p (by simp)
    have hrest := ih fun q hq => h q (by simp [hq])
    cases pieces with
    | nil => simpa using hp
    | cons q pieces => simp [List.intercalate_cons_cons, hs, hp, hrest]

theorem notMem_leading {x c : Char} (hc : x ≠ c) {pieces : List (List Char)}
    (h : ∀ p ∈ pieces, x ∉ p) : ∀ p ∈ leading c pieces, x ∉ p := by
  cases pieces with
  | nil => simp [leading]
  | cons q pieces =>
    rw [List.forall_mem_cons] at h
    simpa [leading, hc] using h

/-- The second text is the first one with blanks in front of it. -/
def Padded (cs padded : List Char) : Prop :=
  ∃ blanks : List Char, (∀ d ∈ blanks, isBlank d = true) ∧ padded = blanks ++ cs

namespace Padded

variable {cs padded : List Char}

theorem refl (cs : List Char) : Padded cs cs :=
  ⟨[], by simp, rfl⟩

theorem single {c : Char} (hc : isBlank c = true) (cs : List Char) : Padded cs (c :: cs) :=
  ⟨[c], by simpa using hc, rfl⟩

theorem dropWhile_isBlank (h : Padded cs padded) :
    padded.dropWhile isBlank = cs.dropWhile isBlank := by
  obtain ⟨blanks, hb, rfl⟩ := h
  exact List.dropWhile_append_of_pos hb

theorem notMem (h : Padded cs padded) {c : Char} (hc : isBlank c = false) (hcs : c ∉ cs) :
    c ∉ padded := by
  obtain ⟨blanks, hb, rfl⟩ := h
  rw [List.mem_append]
  rintro (hm | hm)
  · rw [hb c hm] at hc
    cases hc
  · exact hcs hm

theorem depth (h : Padded cs padded) (d : Nat) :
    padded.foldl Segment.parens d = cs.foldl Segment.parens d := by
  obtain ⟨blanks, hb, rfl⟩ := h
  induction blanks with
  | nil => rfl
  | cons c blanks ih =>
    have hc : isBlank c = true := hb c (by simp)
    have hne : c ≠ '(' ∧ c ≠ ')' := by
      constructor
      · rintro rfl
        exact absurd hc (by decide)
      · rintro rfl
        exact absurd hc (by decide)
    rw [List.cons_append, List.foldl_cons]
    simpa [Segment.parens, hne.1, hne.2] using ih fun e he => hb e (by simp [he])

theorem intercalate {mark : Char} {piece : List Char} {pieces : List (List Char)}
    (h : Padded ([mark].intercalate (piece :: pieces)) padded) :
    ∃ first, Padded piece first ∧ padded = [mark].intercalate (first :: pieces) := by
  obtain ⟨blanks, hb, rfl⟩ := h
  refine ⟨blanks ++ piece, ⟨blanks, hb, rfl⟩, ?_⟩
  cases pieces <;> simp [List.intercalate_cons_cons]

end Padded

theorem padded_leading {c : Char} (hc : isBlank c = true) (pieces : List (List Char)) :
    List.Forall₂ Padded pieces (leading c pieces) := by
  cases pieces with
  | nil => exact .nil
  | cons piece pieces =>
    refine .cons (.refl piece) ?_
    rw [List.forall₂_map_right_iff, List.forall₂_same]
    exact fun p _ => .single hc p

namespace Segment

theorem labelsFrom_append {w : List Char} (h : ∀ c ∈ w, isBlank c = false) (i : Nat)
    (name : List Char) (done : List Label) (rest : List Char) :
    labelsFrom i name done (w ++ rest) =
      labelsFrom (i + w.length) (w.reverse ++ name) done rest := by
  induction w generalizing i name with
  | nil => rfl
  | cons c w ih =>
    have hc := h c (by simp)
    rw [List.cons_append, labelsFrom, if_neg (by simp [hc]),
      ih fun d hd => h d (by simp [hd])]
    simp [Nat.add_assoc, Nat.add_comm 1]

theorem names_labelsFrom {words : List (List Char)} (h : ∀ w ∈ words, IsWord w) (i : Nat)
    (done : List Label) :
    (labelsFrom i [] done (spaced words)).map (·.name) =
      done.reverse.map (·.name) ++ words.map String.ofList := by
  induction words generalizing i done with
  | nil => simp [labelsFrom]
  | cons w words ih =>
    obtain ⟨hne, hw⟩ := h w (by simp)
    have hb : ∀ c ∈ w, isBlank c = false := fun c hc => Token.isBlank_of_isWordChar (hw c hc)
    cases words with
    | nil =>
      have hl := labelsFrom_append hb i [] done []
      rw [List.append_nil] at hl
      rw [spaced_singleton, hl]
      simp [labelsFrom, hne, label]
    | cons v words =>
      rw [spaced_cons_cons, labelsFrom_append hb, labelsFrom, if_pos (by decide),
        ih fun u hu => h u (List.mem_cons_of_mem _ hu)]
      simp [hne, label]

end Segment

end Wordcode
