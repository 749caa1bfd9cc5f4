import Wordcode.Proofs.Moves
import Wordcode.Proofs.Rows

namespace Wordcode

/-! A segment that starts `n` characters later is read in the same way, with all its places moved
by `n`. -/

variable {n : Nat}

def Segment.shift (n : Nat) (s : Segment) : Segment :=
  ⟨s.start + n, s.chars⟩

theorem Segment.stands_padded (s : Segment) :
    Stands (List.replicate s.start ' ' ++ s.chars) s.start s.chars :=
  ⟨List.replicate s.start ' ', [], by simp, by simp⟩

namespace Token

theorem itemsAt_shift {i : Nat} {item : List Char} (h : item.length ≤ i) (items : List Label) :
    itemsAt (i + n) item (items.map (Label.move (· + n))) =
      (itemsAt i item items).map (Label.move (· + n)) := by
  unfold itemsAt
  split
  · rfl
  · rename_i hne
    have hpos : 0 < item.length := List.length_pos_of_ne_nil (by simpa using hne)
    have hfirst : i + n - item.length = i - item.length + n := by omega
    have hlast : i - item.length + n + item.length - 1 = i - item.length + item.length - 1 + n := by
      omega
    simp only [List.map_cons, Segment.label, Label.move, Position.move, hfirst, hlast]

theorem wordOf_shift {name : List Char} (h : name ≠ []) (start : Nat) :
    wordOf (start + n) name = (wordOf start name).move (· + n) := by
  have hpos := List.length_pos_of_ne_nil h
  have hlast : start + n + name.length - 1 = start + name.length - 1 + n := by omega
  simp only [wordOf, Word.move, Position.move, hlast, Option.map_none]

theorem withOperand_shift {i : Nat} {item : List Char} (h : item.length ≤ i) (w : Word)
    (start : Nat) (isClosed : Bool) (items : List Label) :
    withOperand (w.move (· + n)) (start + n) (i + n) isClosed item
        (items.map (Label.move (· + n))) =
      (withOperand w start i isClosed item items).move (· + n) := by
  have hstop : (if isClosed then i + n + 1 else i + n) = (if isClosed then i + 1 else i) + n := by
    cases isClosed
    · rfl
    · exact Nat.add_right_comm i n 1
  simp only [withOperand, itemsAt_shift h, hstop, Word.move, OperandText.move, Option.map_some,
    List.map_reverse]

def Mode.move (g : Nat → Nat) : Mode → Mode
  | .between => .between
  | .word start name => .word (g start) name
  | .operand w start item items => .operand (w.move g) (g start) item (items.map (Label.move g))
  | .applied w => .applied (w.move g)
  | .group depth => .group depth
  | .angle start => .angle (g start)

def Mode.Fits (i : Nat) : Mode → Prop
  | .word _ name => name ≠ []
  | .operand _ _ item _ => item.length ≤ i
  | .angle _ => 0 < i
  | _ => True

theorem fits_first (i : Nat) (done : List Token) (c : Char) : (first i done c).1.Fits (i + 1) := by
  unfold first
  repeat' split
  all_goals simp [Mode.Fits]

theorem fits_step {m : Mode} {i : Nat} (h : m.Fits i) (done : List Token) (c : Char) :
    (m.step i done c).1.Fits (i + 1) := by
  cases m with
  | between => exact fits_first i done c
  | word start name =>
    rw [Mode.step]
    repeat' split
    · simp [Mode.Fits]
    · trivial
    · simp [Mode.Fits]
    · exact fits_first _ _ _
  | operand w start item items =>
    rw [Mode.step]
    repeat' split
    · simp [Mode.Fits]
    · trivial
    · trivial
    · exact fits_first _ _ _
    · simpa [Mode.Fits] using h
  | applied w =>
    rw [Mode.step]
    split
    · trivial
    · exact fits_first _ _ _
  | group depth =>
    rw [Mode.step]
    repeat' split
    all_goals trivial
  | angle start =>
    rw [Mode.step]
    split
    · trivial
    · exact Nat.succ_pos i

theorem first_move (g : Nat → Nat) (i : Nat) (done : List Token) (c : Char) :
    first (g i) (done.map (move g)) c =
      (first i done c).map (Mode.move g) (List.map (move g)) := by
  unfold first
  repeat' split
  all_goals rfl

theorem step_shift {m : Mode} {i : Nat} (h : m.Fits i) (done : List Token) (c : Char) :
    (m.move (· + n)).step (i + n) (done.map (move (· + n))) c =
      (m.step i done c).map (Mode.move (· + n)) (List.map (move (· + n))) := by
  have hfirst : ∀ (t : Token), first (i + n) (t.move (· + n) :: done.map (move (· + n))) c =
      (first i (t :: done) c).map (Mode.move (· + n)) (List.map (move (· + n))) := fun t =>
    first_move (· + n) i (t :: done) c
  cases m with
  | between => exact first_move (· + n) i done c
  | word start name =>
    have hword := wordOf_shift (n := n) h start
    simp only [Mode.move, Mode.step, hword]
    repeat' split
    · rfl
    · rfl
    · rfl
    · exact hfirst (.word (wordOf start name))
  | operand w start item items =>
    have hitem : item.length ≤ i := h
    simp only [Mode.move, Mode.step, itemsAt_shift hitem, withOperand_shift hitem]
    repeat' split
    · rfl
    · rfl
    · rfl
    · exact hfirst (.word (withOperand w start i false item items))
    · rfl
  | applied w =>
    simp only [Mode.move, Mode.step]
    split
    · rfl
    · exact hfirst (.word w)
  | group depth =>
    simp only [Mode.move, Mode.step]
    repeat' split
    all_goals rfl
  | angle start =>
    simp only [Mode.move, Mode.step]
    split <;> rfl

theorem finish_shift {m : Mode} {i : Nat} (h : m.Fits i) (done : List Token) :
    (m.move (· + n)).finish (i + n) (done.map (move (· + n))) =
      (m.finish i done).map (move (· + n)) := by
  cases m with
  | word start name => simp only [Mode.move, Mode.finish, wordOf_shift h, List.map_cons, move]
  | operand w start item items =>
    simp only [Mode.move, Mode.finish, withOperand_shift (show item.length ≤ i from h),
      List.map_cons, move]
  | angle start =>
    have hpos : 0 < i := h
    have hlast : i + n - 1 = i - 1 + n := by omega
    simp only [Mode.move, Mode.finish, hlast, List.map_cons, move, Position.move]
  | _ => rfl

theorem scanFrom_shift {m : Mode} {i : Nat} (h : m.Fits i) (done : List Token) (cs : List Char) :
    scanFrom (i + n) (m.move (· + n)) (done.map (move (· + n))) cs =
      (scanFrom i m done cs).map (move (· + n)) := by
  induction cs generalizing i m done with
  | nil => rw [scanFrom, scanFrom, finish_shift h, List.map_reverse]
  | cons c cs ih =>
    rw [scanFrom, scanFrom, step_shift h]
    dsimp only [Prod.map]
    rw [Nat.add_right_comm i n 1]
    exact ih (fits_step h done c) _

theorem scan_shift (s : Segment) : scan (s.shift n) = (scan s).map (move (· + n)) :=
  scanFrom_shift (m := .between) trivial [] s.chars

theorem Chain.stands_of_mem {text : List Char} {lo hi : Nat} {t : Token} {ts : List Token}
    (h : Chain text lo hi ts) (ht : t ∈ ts) : t.Stands text := by
  induction h with
  | nil => cases ht
  | cons _ _ hstands _ _ ih =>
    rcases List.mem_cons.mp ht with rfl | ht
    · exact hstands
    · exact ih ht

theorem movable_scan (s : Segment) : ∀ t ∈ scan s, t.Movable (· + n) := by
  intro t ht
  have h := (chain_scan s.stands_padded).stands_of_mem ht
  cases t with
  | word w =>
    intro operand ho
    have hlt := (Word.Stands.operand h operand ho).2.1
    exact ⟨by omega, by omega⟩
  | _ => trivial

end Token

namespace Segment

theorem labelsFrom_shift {i : Nat} {name : List Char} (h : name.length ≤ i) (done : List Label)
    (cs : List Char) :
    labelsFrom (i + n) name (done.map (Label.move (· + n))) cs =
      (labelsFrom i name done cs).map (Label.move (· + n)) := by
  induction cs generalizing i name done with
  | nil =>
    rw [labelsFrom, labelsFrom, labelsFrom_eq, labelsFrom_eq, Token.itemsAt_shift h,
      List.map_reverse]
  | cons c cs ih =>
    rw [labelsFrom, labelsFrom, labelsFrom_eq, labelsFrom_eq, Token.itemsAt_shift h,
      Nat.add_right_comm i n 1]
    split
    · exact ih (Nat.zero_le _) _
    · exact ih (by simpa using h) _

theorem labels_shift (s : Segment) : (s.shift n).labels = s.labels.map (Label.move (· + n)) :=
  labelsFrom_shift (Nat.zero_le _) [] s.chars

theorem splitFrom_shift (nest : Nat → Char → Nat) (mark : Char) (i depth start : Nat)
    (piece : List Char) (done : List Segment) (cs : List Char) :
    splitFrom nest mark (i + n) depth (start + n) piece (done.map (shift n)) cs =
      (splitFrom nest mark i depth start piece done cs).map (shift n) := by
  induction cs generalizing i depth start piece done with
  | nil => simp [splitFrom, shift]
  | cons c cs ih =>
    rw [splitFrom, splitFrom, Nat.add_right_comm i n 1]
    split
    · exact ih (i + 1) depth (i + 1) [] (⟨start, piece.reverse⟩ :: done)
    · exact ih (i + 1) (nest depth c) start (c :: piece) done

theorem splitOuter_shift (mark : Char) (s : Segment) :
    (s.shift n).splitOuter mark = (s.splitOuter mark).map (shift n) :=
  splitFrom_shift parens mark s.start 0 s.start [] [] s.chars

theorem trim_shift (s : Segment) : (s.shift n).trim = s.trim.shift n := by
  simp only [trim, shift, Nat.add_right_comm]

theorem position_shift (s : Segment) : (s.shift n).position = s.position.move (· + n) := by
  simp only [position, stop, shift, Position.move, Position.mk.injEq, true_and]
  omega

theorem sides_shift (s : Segment) : (s.shift n).sides =
    (s.sides.map (Prod.map (shift n) (shift n))).mapError (Problem.move (· + n)) := by
  unfold sides
  rw [splitOuter_shift, position_shift]
  cases s.splitOuter ':' with
  | nil => rfl
  | cons left rest =>
    cases rest with
    | nil => rfl
    | cons right rest => cases rest <;> rfl

end Segment

theorem Reading.read_shift (ctx : Context) {right : Segment} (h : 0 < right.stop) :
    read ctx (right.shift n) = (read ctx right).move (· + n) := by
  have hlast : right.stop + n - 1 = right.stop - 1 + n := by omega
  have hstop : (right.shift n).stop = right.stop + n := Nat.add_right_comm _ _ _
  rw [read_move ctx hlast (Token.movable_scan right), read, Token.scan_shift, hstop]

namespace Statement

theorem ofSides_shift (table : Table) (scope : Scope) (p : Position) (left : Segment)
    {right : Segment} (h : 0 < right.stop) :
    ofSides table scope (p.move (· + n)) (left.shift n) (right.shift n) =
      (ofSides table scope p left right).map (move (· + n)) (List.map (Problem.move (· + n))) := by
  rw [ofSides_eq, ofSides_eq, ofReading_move, Segment.labels_shift, pending_move,
    Reading.read_shift _ h]

theorem ofSegment_shift (table : Table) (scope : Scope) (segment : Segment) :
    ofSegment table scope (segment.shift n) =
      (ofSegment table scope segment).map (Option.map (move (· + n)))
        (List.map (Problem.move (· + n))) := by
  have hempty : (segment.trim.shift n).isEmpty = segment.trim.isEmpty := rfl
  unfold ofSegment
  dsimp only
  rw [Segment.trim_shift, hempty, Segment.sides_shift, Segment.position_shift]
  split
  · rfl
  cases hs : segment.trim.sides with
  | error problem => rfl
  | ok sides =>
    obtain ⟨left, right⟩ := sides
    have hright : 0 < right.stop := by
      obtain ⟨-, -, -, hcolon, -⟩ := Segment.stands_sides segment.trim.stands_padded hs
      have hle : right.start ≤ right.stop := Nat.le_add_right _ _
      omega
    have hsides := ofSides_shift (n := n) table scope segment.trim.position left hright
    simp only [Except.map, Except.mapError, Prod.map] at hsides ⊢
    rw [hsides]
    rfl

end Statement

namespace Source

theorem readFrom_shift (table : Table) (scope : Scope) (segments : List Segment) :
    readFrom table scope (segments.map (Segment.shift n)) =
      (readFrom table scope segments).map (List.map (Statement.move (· + n)))
        (List.map (Problem.move (· + n))) := by
  induction segments generalizing scope with
  | nil => rfl
  | cons segment rest ih =>
    rw [List.map_cons, readFrom, readFrom, Statement.ofSegment_shift]
    cases Statement.ofSegment table scope segment with
    | mk found problems =>
      cases found with
      | none => simp [ih]
      | some s =>
        have hscope : scope.declareAll (s.move (· + n)).labels = scope.declareAll s.labels :=
          scope.declareAll_move s.labels
        simp [ih, hscope]

theorem ofSegment_shift (table : Table) (segment : Segment) :
    ofSegment table (segment.shift n) =
      (ofSegment table segment).map (move (· + n)) (List.map (Problem.move (· + n))) := by
  have hstatements : (segment.shift n).statements = segment.statements.map (Segment.shift n) :=
    Segment.splitOuter_shift ',' segment
  rw [ofSegment_eq, ofSegment_eq, Segment.trim_shift, Segment.position_shift, hstatements,
    readFrom_shift]
  rfl

end Source

end Wordcode
