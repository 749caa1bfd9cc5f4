import Wordcode.Proofs.Positions
import Wordcode.Proofs.Reflow

namespace Wordcode

/-- The second text is the first one with blanks in place of some of its characters. -/
def Blanked (text chars : List Char) : Prop :=
  List.Forall₂ (fun c d => d = c ∨ isBlank d = true) text chars

namespace Blanked

variable {text chars : List Char}

theorem getElem? (h : Blanked text chars) {i : Nat} {c : Char} (hc : chars[i]? = some c)
    (hb : isBlank c = false) : text[i]? = some c := by
  induction h generalizing i with
  | nil => simp at hc
  | cons hd _ ih =>
    cases i with
    | zero =>
      simp only [List.getElem?_cons_zero, Option.some.injEq] at hc ⊢
      subst hc
      rcases hd with rfl | hd
      · rfl
      · rw [hd] at hb
        cases hb
    | succ i => exact ih (by simpa using hc)

theorem stands (h : Blanked text chars) {i : Nat} {cs : List Char} (hs : Stands chars i cs)
    (hcs : ∀ c ∈ cs, isBlank c = false) : Stands text i cs := by
  induction cs generalizing i with
  | nil =>
    have hle := hs.le
    rw [← List.Forall₂.length_eq h] at hle
    exact .nil (by simpa using hle)
  | cons c cs ih =>
    rw [List.forall_mem_cons] at hcs
    rw [Stands.cons_iff] at hs ⊢
    exact ⟨h.getElem? hs.1 hcs.1, ih hs.2 hcs.2⟩

theorem spelled (h : Blanked text chars) {word : String} {p : Position}
    (hw : Spelled chars word p) : Spelled text word p :=
  ⟨h.stands hw.stands hw.solid, hw.solid, hw.le, hw.length⟩

theorem reads (h : Blanked text chars) {n : Node} (hn : n.Reads chars) : n.Reads text := by
  cases n with
  | value raw v p tags => exact h.spelled hn
  | reference name p tags => exact h.spelled hn
  | call head params tags =>
    obtain ⟨⟨hname, hsolid, hlt, hle, harguments⟩, hparen⟩ := hn
    refine ⟨⟨h.stands hname hsolid, hsolid, hlt, hle, harguments⟩, ?_⟩
    intro q hq
    obtain ⟨hfirst, horder, hlast, hopen, hclose⟩ := hparen q hq
    exact ⟨hfirst, horder, hlast, h.getElem? hopen (by decide), h.getElem? hclose (by decide)⟩

theorem laid (h : Blanked text chars) {lo hi : Nat} {ns : List Node}
    (hl : Node.Laid chars lo hi ns) : Node.Laid text lo hi ns := by
  induction hl with
  | nil hle => exact .nil hle
  | cons hlo hn htags _ _ ihparams ihrest =>
    exact .cons hlo (h.reads hn) (fun l hm => h.spelled (htags l hm)) ihparams ihrest

end Blanked

theorem blanked_stripFrom (i : Nat) (st : OpenComment) (done : Stripped) (cs : List Char) :
    ∃ out, (stripFrom i st done cs).chars = done.chars.reverse ++ out ∧ Blanked cs out := by
  have hblank : ∀ c : Char, ' ' = c ∨ isBlank ' ' = true := fun _ => .inr (by decide)
  fun_induction stripFrom with
  | case1 => exact ⟨[], by simp [Stripped.reverse], .nil⟩
  | case2 i done rest ih =>
    obtain ⟨out, hout, hb⟩ := ih
    refine ⟨'*' :: '/' :: out, ?_, .cons (.inl rfl) (.cons (.inl rfl) hb)⟩
    simpa [Stripped.push, Stripped.problem] using hout
  | case3 i done rest ih =>
    obtain ⟨out, hout, hb⟩ := ih
    refine ⟨' ' :: ' ' :: out, ?_, .cons (hblank _) (.cons (hblank _) hb)⟩
    simpa [Stripped.push] using hout
  | case4 i done c rest _ _ ih =>
    obtain ⟨out, hout, hb⟩ := ih
    exact ⟨c :: out, by simpa [Stripped.push] using hout, .cons (.inl rfl) hb⟩
  | case5 => exact ⟨[], by simp [Stripped.reverse, Stripped.comment, Stripped.problem], .nil⟩
  | case6 i start text done rest ih =>
    obtain ⟨out, hout, hb⟩ := ih
    refine ⟨' ' :: ' ' :: out, ?_, .cons (hblank _) (.cons (hblank _) hb)⟩
    simpa [Stripped.push, Stripped.comment] using hout
  | case7 i start text done c rest _ ih =>
    obtain ⟨out, hout, hb⟩ := ih
    exact ⟨' ' :: out, by simpa [Stripped.push] using hout, .cons (hblank _) hb⟩

theorem blanked_stripComments (text : List Char) : Blanked text (stripComments text).chars := by
  obtain ⟨out, hout, hb⟩ := blanked_stripFrom 0 none {} text
  rw [stripComments, hout]
  exact hb

theorem length_stripComments (text : List Char) :
    (stripComments text).chars.length = text.length :=
  (List.Forall₂.length_eq (blanked_stripComments text)).symm

structure Comment.Marks (text : List Char) (c : Comment) : Prop where
  stands : Stands text c.position.first c.text.toList
  le : c.position.first ≤ c.position.last
  length : c.position.first + c.text.toList.length = c.position.last + 1

def OpenComment.At (text : List Char) (i : Nat) : OpenComment → Prop
  | none => True
  | some (start, chars) =>
    Stands text start chars.reverse ∧ start + chars.length = i ∧ start < i

theorem OpenComment.At.step {text chars : List Char} {start i : Nat} {c : Char}
    (h : At text i (some (start, chars))) (hc : text[i]? = some c) :
    At text (i + 1) (some (start, c :: chars)) := by
  obtain ⟨hstands, rfl, hlt⟩ := h
  refine ⟨?_, by simp [Nat.add_assoc], by omega⟩
  rw [List.reverse_cons, Stands.append_iff, List.length_reverse, Stands.singleton_iff]
  exact ⟨hstands, hc⟩

theorem OpenComment.At.marks {text chars : List Char} {start i : Nat}
    (h : At text i (some (start, chars))) :
    Comment.Marks text ⟨String.ofList chars.reverse, ⟨start, i - 1⟩⟩ := by
  obtain ⟨hstands, rfl, hlt⟩ := h
  refine ⟨by simpa using hstands, ?_, ?_⟩
  · dsimp only
    omega
  · simp only [String.toList_ofList, List.length_reverse]
    omega

/-- The comments are those of the text and the problems are in it. -/
structure Stripped.Marks (text : List Char) (s : Stripped) : Prop where
  comments : ∀ c ∈ s.comments, c.Marks text
  problems : ∀ q ∈ s.problems, q.position.Within 0 text.length

theorem marks_stripFrom {text : List Char} (i : Nat) (st : OpenComment) (done : Stripped)
    (cs : List Char) (hcs : Stands text i cs) (hst : st.At text i) (h : done.Marks text) :
    (stripFrom i st done cs).Marks text := by
  fun_induction stripFrom with
  | case1 => exact ⟨by simpa [Stripped.reverse] using h.1, by simpa [Stripped.reverse] using h.2⟩
  | case2 i done rest ih =>
    have hle := hcs.le
    rw [Stands.cons_iff, Stands.cons_iff] at hcs
    refine ih hcs.2.2 trivial ⟨h.1, ?_⟩
    refine List.forall_mem_cons.mpr ⟨⟨Nat.zero_le _, Nat.le_succ i, ?_⟩, h.2⟩
    simp only [List.length_cons] at hle
    simp only [strayEnd]
    omega
  | case3 i done rest ih =>
    rw [Stands.cons_iff, Stands.cons_iff] at hcs
    refine ih hcs.2.2 ⟨?_, rfl, by omega⟩ ⟨h.1, h.2⟩
    rw [show ['*', '/'].reverse = ['/', '*'] from rfl, Stands.cons_iff, Stands.cons_iff]
    exact ⟨hcs.1, hcs.2.1, .nil (by simpa using hcs.2.2.le.trans' (Nat.le_add_right _ _))⟩
  | case4 i done c rest _ _ ih => exact ih (Stands.cons_iff.mp hcs).2 trivial ⟨h.1, h.2⟩
  | case5 i done start chars =>
    have hm := hst.marks
    have hle := hcs.le
    have hlt := hst.2.2
    simp only [List.length_nil, Nat.add_zero] at hle
    refine ⟨?_, ?_⟩
    · simpa [Stripped.reverse, Stripped.comment, Stripped.problem, or_imp, forall_and] using
        ⟨h.1, hm⟩
    · simp only [Stripped.reverse, Stripped.comment, Stripped.problem, List.reverse_cons,
        List.mem_append, List.mem_reverse, List.mem_singleton, or_imp, forall_and, forall_eq]
      refine ⟨h.2, Nat.zero_le _, ?_, ?_⟩
      all_goals
        simp only [unterminated]
        omega
  | case6 i done start chars rest ih =>
    rw [Stands.cons_iff, Stands.cons_iff] at hcs
    have hm := ((hst.step hcs.1).step hcs.2.1).marks
    exact ih hcs.2.2 trivial ⟨List.forall_mem_cons.mpr ⟨hm, h.1⟩, h.2⟩
  | case7 i done start chars c rest _ ih =>
    rw [Stands.cons_iff] at hcs
    exact ih hcs.2 (hst.step hcs.1) ⟨h.1, h.2⟩

theorem marks_stripComments (text : List Char) : (stripComments text).Marks text :=
  marks_stripFrom 0 none {} text (.self text) trivial ⟨by simp, by simp⟩

end Wordcode
