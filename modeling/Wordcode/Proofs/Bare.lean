import Wordcode.Proofs.Moves
import Wordcode.Proofs.Scanning

namespace Wordcode

/-! What is read from a text is compared with what is read from another one, at whatever places it
stands. A thing is bare if its positions are left out. -/

def Problem.bare (p : Problem) : Problem :=
  { p with position := default }

def Label.bare (l : Label) : Label :=
  { l with position := default }

def Argument.bare (a : Argument) : Argument :=
  { a with position := default }

def Call.bare (c : Call) : Call :=
  { c with position := default, paren := none, arguments := c.arguments.map Argument.bare }

namespace Node

mutual

def bare : Node → Node
  | .value raw v _ tags => .value raw v default (tags.map Label.bare)
  | .reference name _ tags => .reference name default (tags.map Label.bare)
  | .call head params tags => .call head.bare (allBare params) (tags.map Label.bare)

def allBare : List Node → List Node
  | [] => []
  | n :: rest => n.bare :: allBare rest

end

@[simp]
theorem allBare_eq_map (ns : List Node) : allBare ns = ns.map bare := by
  induction ns with
  | nil => rfl
  | cons n ns ih => rw [allBare, ih, List.map_cons]

end Node

def OperandText.bare (t : OperandText) : OperandText :=
  { t with start := 0, stop := 0, items := t.items.map Label.bare }

def Word.bare (w : Word) : Word :=
  { w with
    position := default
    operand := w.operand.map OperandText.bare
    paren := w.paren.map fun _ => 0 }

theorem Word.bare_open (w : Word) (i : Nat) :
    bare { w with paren := some i } = { w.bare with paren := some 0 } := rfl

namespace Token

def bare : Token → Token
  | .word w => .word w.bare
  | .close _ => .close 0
  | .group _ => .group 0
  | .operand _ => .operand default
  | .closeAngle _ => .closeAngle 0
  | .comma _ => .comma 0
  | .illegal c _ => .illegal c 0

def Mode.bare : Mode → Mode
  | .between => .between
  | .word _ name => .word 0 name
  | .operand w _ item items => .operand w.bare 0 item (items.map Label.bare)
  | .applied w => .applied w.bare
  | .group depth => .group depth
  | .angle _ => .angle 0

@[simp]
theorem wordOf_bare (start : Nat) (name : List Char) :
    (wordOf start name).bare = ⟨String.ofList name.reverse, default, none, none⟩ := rfl

@[simp]
theorem map_bare_itemsAt (i : Nat) (item : List Char) (items : List Label) :
    (itemsAt i item items).map Label.bare =
      if item.isEmpty then items.map Label.bare
      else ⟨String.ofList item.reverse, default⟩ :: items.map Label.bare := by
  unfold itemsAt
  split <;> rfl

@[simp]
theorem withOperand_bare (w : Word) (start i : Nat) (isClosed : Bool) (item : List Char)
    (items : List Label) :
    (withOperand w start i isClosed item items).bare =
      { w.bare with
        operand := some ⟨0, 0, isClosed, ((itemsAt i item items).map Label.bare).reverse⟩ } := by
  simp [withOperand, Word.bare, OperandText.bare]

theorem first_congr (i j : Nat) (c : Char) {done done' : List Token}
    (h : done.map bare = done'.map bare) :
    (first i done c).map Mode.bare (List.map bare) =
      (first j done' c).map Mode.bare (List.map bare) := by
  unfold first
  repeat' split
  all_goals simp [Mode.bare, bare, h]

theorem step_congr {m m' : Mode} (h : m.bare = m'.bare) (i j : Nat) (c : Char) :
    (m.step i [] c).map Mode.bare (List.map bare) =
      (m'.step j [] c).map Mode.bare (List.map bare) := by
  cases m <;> cases m' <;> simp only [Mode.bare, reduceCtorEq, Mode.word.injEq,
    Mode.operand.injEq, Mode.applied.injEq, Mode.group.injEq] at h
  case between => exact first_congr i j c rfl
  case word start name start' name' =>
    obtain ⟨-, rfl⟩ := h
    have hfirst : (first i [.word (wordOf start name)] c).map Mode.bare (List.map bare) =
        (first j [.word (wordOf start' name)] c).map Mode.bare (List.map bare) :=
      first_congr i j c rfl
    simp only [Mode.step]
    repeat' split
    all_goals first | exact hfirst | rfl
  case operand w start item items w' start' item' items' =>
    obtain ⟨hw, -, rfl, hitems⟩ := h
    have hword : ∀ closed, (withOperand w start i closed item items).bare =
        (withOperand w' start' j closed item items').bare := by
      simp [hw, hitems]
    have hfirst : (first i [.word (withOperand w start i false item items)] c).map Mode.bare
        (List.map bare) = (first j [.word (withOperand w' start' j false item items')] c).map
          Mode.bare (List.map bare) :=
      first_congr i j c (by simp only [List.map_cons, List.map_nil, bare, hword])
    simp only [Mode.step]
    split
    · simp [Mode.bare, hw, hitems]
    split
    · simp [Mode.bare, hword]
    split
    · simp only [Prod.map, List.map_cons, List.map_nil, bare, Word.bare_open, hword]
    split
    · exact hfirst
    · simp [Mode.bare, hw, hitems]
  case applied w w' =>
    have hfirst : (first i [.word w] c).map Mode.bare (List.map bare) =
        (first j [.word w'] c).map Mode.bare (List.map bare) :=
      first_congr i j c (by simp only [List.map_cons, List.map_nil, bare, h])
    simp only [Mode.step]
    split
    · simp only [Prod.map, List.map_cons, List.map_nil, bare, Word.bare_open, h]
    · exact hfirst
  case group depth depth' =>
    obtain rfl := h
    rfl
  case angle start start' =>
    simp only [Mode.step]
    split <;> rfl

theorem finish_congr {m m' : Mode} (h : m.bare = m'.bare) (i j : Nat) :
    (m.finish i []).map bare = (m'.finish j []).map bare := by
  cases m <;> cases m' <;> simp only [Mode.bare, reduceCtorEq, Mode.word.injEq,
    Mode.operand.injEq, Mode.applied.injEq, Mode.group.injEq] at h
  case between => rfl
  case word start name start' name' => simp [Mode.finish, bare, h.2]
  case operand w start item items w' start' item' items' => simp [Mode.finish, bare, h]
  case applied w w' => simp [Mode.finish, bare, h]
  case group depth depth' => rfl
  case angle start start' => rfl

theorem scanFrom_congr {m m' : Mode} (h : m.bare = m'.bare) (i j : Nat) (cs : List Char) :
    (scanFrom i m [] cs).map bare = (scanFrom j m' [] cs).map bare := by
  induction cs generalizing i j m m' with
  | nil =>
    rw [scanFrom, scanFrom, List.map_reverse, List.map_reverse, finish_congr h i j]
  | cons c cs ih =>
    have hs := step_congr h i j c
    rw [Prod.map, Prod.map, Prod.mk.injEq] at hs
    rw [scanFrom, scanFrom]
    dsimp only
    rw [scanFrom_done, scanFrom_done (j + 1), List.map_append, List.map_append, List.map_reverse,
      List.map_reverse, hs.2, ih hs.1 (i + 1) (j + 1)]

end Token

/-! If all indices are moved to one place, no more is left of them than of what is bare. -/

theorem Token.bare_eq_move (t : Token) : t.bare = t.move fun _ => 0 := by
  cases t <;> rfl

theorem Token.movable_zero (t : Token) : t.Movable fun _ => 0 := by
  cases t with
  | word w => exact fun t _ => ⟨rfl, rfl⟩
  | _ => trivial

theorem Label.map_bare_move (g : Nat → Nat) (ls : List Label) :
    (ls.map (move g)).map bare = ls.map bare := by
  rw [List.map_map]
  rfl

theorem Call.bare_move (g : Nat → Nat) (c : Call) : (c.move g).bare = c.bare := by
  simp only [bare, move, List.map_map]
  rfl

namespace Node

mutual

theorem bare_move (g : Nat → Nat) : (n : Node) → (n.move g).bare = n.bare
  | .value raw v p tags => by rw [move, bare, bare, Label.map_bare_move]
  | .reference name p tags => by rw [move, bare, bare, Label.map_bare_move]
  | .call head params tags => by
    rw [move, bare, bare, Label.map_bare_move, head.bare_move, allBare_moveAll g params]

theorem allBare_moveAll (g : Nat → Nat) : (ns : List Node) → allBare (moveAll g ns) = allBare ns
  | [] => rfl
  | n :: rest => by rw [moveAll, allBare, allBare, bare_move g n, allBare_moveAll g rest]

end

theorem outputCount?_bare (n : Node) : n.bare.outputCount? = n.outputCount? := by
  cases n <;> rfl

end Node

theorem Scope.declareAll_bare (s : Scope) (labels : List Label) :
    s.declareAll (labels.map Label.bare) = s.declareAll labels :=
  s.declareAll_move (g := fun _ => 0) labels

def Statement.bare (s : Statement) : Statement :=
  ⟨default, s.labels.map Label.bare, s.nodes.map Node.bare⟩

def Source.bare (s : Source) : Source :=
  ⟨default, s.statements.map Statement.bare⟩

theorem Statement.bare_move (g : Nat → Nat) (s : Statement) : (s.move g).bare = s.bare := by
  have hnodes : (s.nodes.map (Node.move g)).map Node.bare = s.nodes.map Node.bare := by
    rw [List.map_map]
    exact List.map_congr_left fun n _ => n.bare_move g
  simp only [bare, move, Label.map_bare_move, hnodes]

theorem Reading.read_congr (ctx : Context) {right right' : Segment}
    (h : (Token.scan right).map Token.bare = (Token.scan right').map Token.bare) :
    (read ctx right).move (fun _ => 0) = (read ctx right').move fun _ => 0 := by
  have hbare : Token.bare = Token.move fun _ => 0 := funext Token.bare_eq_move
  rw [read_move ctx rfl fun t _ => t.movable_zero, read_move ctx rfl fun t _ => t.movable_zero,
    ← hbare, h]

theorem Statement.ofSides_congr (table : Table) (scope : Scope) (p p' : Position)
    {left left' right right' : Segment}
    (hl : left.labels.map Label.bare = left'.labels.map Label.bare)
    (hr : (Token.scan right).map Token.bare = (Token.scan right').map Token.bare) :
    (ofSides table scope p left right).map bare (List.map Problem.bare) =
      (ofSides table scope p' left' right').map bare (List.map Problem.bare) := by
  have hpending : (left.labels.filter (·.isBindable)).map (·.name) =
      (left'.labels.filter (·.isBindable)).map (·.name) := by
    rw [← pending_move (g := fun _ => 0), ← pending_move (g := fun _ => 0) left'.labels]
    exact congrArg (fun ls => (ls.filter (·.isBindable)).map (·.name)) hl
  have hmoved : ∀ x : Statement × List Problem, x.map bare (List.map Problem.bare) =
      (x.map (move fun _ => 0) (List.map (Problem.move fun _ => 0))).map bare
        (List.map Problem.bare) := by
    rintro ⟨s, problems⟩
    simp only [Prod.map, bare_move, List.map_map]
    rfl
  have hlabels : left.labels.map (Label.move fun _ => 0) =
      left'.labels.map (Label.move fun _ => 0) := hl
  have hposition : p.move (fun _ => 0) = p'.move fun _ => 0 := rfl
  rw [hmoved, hmoved (ofSides table scope p' left' right'), ofSides_eq, ofSides_eq, ofReading_move,
    ofReading_move, hlabels, hpending, Reading.read_congr _ hr, hposition]

end Wordcode
