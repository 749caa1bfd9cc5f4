import Wordcode.Proofs.Documents

namespace Wordcode

/-! All places in what is read are indices of the text. To read tokens whose indices are moved is
the same as to move the indices of what was read. -/

def Position.move (g : Nat → Nat) (p : Position) : Position :=
  ⟨g p.first, g p.last⟩

def Problem.move (g : Nat → Nat) (p : Problem) : Problem :=
  { p with position := p.position.move g }

def Label.move (g : Nat → Nat) (l : Label) : Label :=
  { l with position := l.position.move g }

def Argument.move (g : Nat → Nat) (a : Argument) : Argument :=
  { a with position := a.position.move g }

def Call.move (g : Nat → Nat) (c : Call) : Call :=
  { c with
    position := c.position.move g
    paren := c.paren.map (Position.move g)
    arguments := c.arguments.map (Argument.move g) }

namespace Node

mutual

def move (g : Nat → Nat) : Node → Node
  | .value raw v p tags => .value raw v (p.move g) (tags.map (Label.move g))
  | .reference name p tags => .reference name (p.move g) (tags.map (Label.move g))
  | .call head params tags => .call (head.move g) (moveAll g params) (tags.map (Label.move g))

def moveAll (g : Nat → Nat) : List Node → List Node
  | [] => []
  | n :: rest => n.move g :: moveAll g rest

end

@[simp]
theorem moveAll_eq_map (g : Nat → Nat) (ns : List Node) : moveAll g ns = ns.map (move g) := by
  induction ns with
  | nil => rfl
  | cons n ns ih => rw [moveAll, ih, List.map_cons]

end Node

def OperandText.move (g : Nat → Nat) (t : OperandText) : OperandText :=
  { t with start := g t.start, stop := g t.stop, items := t.items.map (Label.move g) }

def Word.move (g : Nat → Nat) (w : Word) : Word :=
  { w with
    position := w.position.move g
    operand := w.operand.map (OperandText.move g)
    paren := w.paren.map g }

def Token.move (g : Nat → Nat) : Token → Token
  | .word w => .word (w.move g)
  | .close i => .close (g i)
  | .group i => .group (g i)
  | .operand p => .operand (p.move g)
  | .closeAngle i => .closeAngle (g i)
  | .comma i => .comma (g i)
  | .illegal c i => .illegal c (g i)

def Frame.move (g : Nat → Nat) (f : Frame) : Frame :=
  { f with call := f.call.move g, paren := g f.paren, parameters := f.parameters.map (Node.move g) }

def Reading.move (g : Nat → Nat) (r : Reading) : Reading :=
  { r with
    frames := r.frames.map (Frame.move g)
    nodes := r.nodes.map (Node.move g)
    problems := r.problems.map (Problem.move g) }

def Statement.move (g : Nat → Nat) (s : Statement) : Statement :=
  ⟨s.position.move g, s.labels.map (Label.move g), s.nodes.map (Node.move g)⟩

def Source.move (g : Nat → Nat) (s : Source) : Source :=
  ⟨s.position.move g, s.statements.map (Statement.move g)⟩

/-- The last index of an operand text can be told from where the index behind it is moved to. -/
structure OperandText.Movable (g : Nat → Nat) (t : OperandText) : Prop where
  stop : g t.stop - 1 = g (t.stop - 1)
  last : max (g t.stop - 1) (g t.start) = g (max (t.stop - 1) t.start)

def Word.Movable (g : Nat → Nat) (w : Word) : Prop :=
  ∀ t ∈ w.operand, t.Movable g

def Token.Movable (g : Nat → Nat) : Token → Prop
  | .word w => w.Movable g
  | _ => True

variable {g : Nat → Nat}

theorem readArgument_move (item : Label) : readArgument (item.move g) =
    ((readArgument item).map (Argument.move g)).mapError (Problem.move g) := by
  unfold readArgument
  simp only [Label.move]
  by_cases hn : Literal.isNumeric item.name = true
  · simp only [hn, Bool.not_true, Bool.false_eq_true, if_false]
    cases Literal.read item.name with
    | error cause => rfl
    | ok n =>
      dsimp only
      split <;> rfl
  · simp only [hn, Bool.not_false, if_true]
    rfl

theorem readValue_move (w : Word) :
    readValue (w.move g) = (readValue w).mapError (Problem.move g) := by
  unfold readValue
  have hname : (w.move g).name = w.name := rfl
  rw [hname]
  split <;> rfl

namespace OperandText

theorem arguments_move (t : OperandText) :
    (t.move g).arguments = t.arguments.map (Argument.move g) := by
  simp only [arguments, results, move, List.filterMap_map, List.map_filterMap]
  congr 1
  funext item
  simp only [Function.comp_apply, readArgument_move]
  cases readArgument item <;> rfl

variable {t : OperandText} (h : t.Movable g)

include h

theorem unclosed_move : (t.move g).unclosed = t.unclosed.move g := by
  simp only [unclosed, move, Problem.move, Position.move, h.last]

theorem problems_move : (t.move g).problems = t.problems.map (Problem.move g) := by
  rw [problems, problems, List.map_append]
  congr 1
  · simp only [results, move, List.filterMap_map, List.map_filterMap]
    congr 1
    funext item
    simp only [Function.comp_apply, readArgument_move]
    cases readArgument item <;> rfl
  · have hclosed : (t.move g).isClosed = t.isClosed := rfl
    rw [hclosed, unclosed_move h]
    split <;> rfl

theorem isGood_move : (t.move g).isGood = t.isGood := by
  simp [isGood, problems_move h]

theorem mismatch?_move (op : Opcode) :
    (t.move g).mismatch? op = (t.mismatch? op).map (Problem.move g) := by
  simp only [mismatch?, isGood_move h, arguments_move, List.length_map]
  split
  · simp only [Option.map_some, Problem.move, Position.move, ← h.stop]
    rfl
  · rfl

end OperandText

namespace Word

variable {w : Word}

theorem arguments_move : (w.move g).arguments = w.arguments.map (Argument.move g) := by
  cases ho : w.operand with
  | none => simp [arguments, move, ho]
  | some t => simp [arguments, move, ho, t.arguments_move]

theorem lacksArguments_move (entry : Option Opcode) :
    (w.move g).lacksArguments entry = w.lacksArguments entry := by
  simp [lacksArguments, move]

theorem isCall_move : (w.move g).isCall = w.isCall := by
  simp [isCall, move]

variable (h : w.Movable g)

include h

theorem operandProblems_move (entry : Option Opcode) :
    (w.move g).operandProblems entry = (w.operandProblems entry).map (Problem.move g) := by
  cases ho : w.operand with
  | none => simp [operandProblems, move, ho]
  | some t =>
    have ht := h t ho
    have hm : (entry.bind (t.move g).mismatch?).toList =
        (entry.bind t.mismatch?).toList.map (Problem.move g) := by
      cases entry with
      | none => rfl
      | some op => simp [OperandText.mismatch?_move ht, Option.toList_map]
    simp [operandProblems, move, ho, OperandText.problems_move ht, hm]

theorem operandError_move (entry : Option Opcode) :
    (w.move g).operandError entry = w.operandError entry := by
  cases entry with
  | none => rfl
  | some op =>
    cases ho : w.operand with
    | none => simp [operandError, move, ho]
    | some t =>
      simp [operandError, move, ho, OperandText.isGood_move (h t ho), t.arguments_move]

theorem call_move (number : Option UInt16) :
    (w.move g).call number = (w.call number).move g := by
  have hstop : (w.move g).stop - 1 = g (w.stop - 1) := by
    cases ho : w.operand with
    | none => simp [stop, move, ho, Position.move]
    | some t => simpa [stop, move, ho, OperandText.move] using (h t ho).stop
  rw [call, call, Call.move, hstop, arguments_move]
  rfl

end Word

namespace Call

theorem badItem_move (c : Call) (params : Nat) (items : List OperandItem) (i : Nat) :
    (c.move g).badItem params items i = (c.badItem params items i).map (Problem.move g) := by
  unfold badItem
  cases items[i]? with
  | none => rfl
  | some item =>
    dsimp only
    split
    · rfl
    · simp only [move, List.getElem?_map]
      cases c.arguments[(items.take i).countP (!·.isInputs)]? <;> rfl

theorem resolve_move (c : Call) (op : Opcode) (params : Nat) (nested : Bool) :
    (c.move g).resolve op params nested =
      (c.resolve op params nested).mapError (List.map (Problem.move g)) := by
  have hargs : (c.move g).arguments.map (·.value) = c.arguments.map (·.value) := by
    simp [move, Function.comp_def, Argument.move]
  unfold resolve
  rw [hargs]
  cases op.packOperand (c.arguments.map (·.value)) params with
  | error indices =>
    simp only [Except.mapError, List.map_filterMap, badItem_move]
  | ok operand =>
    dsimp only
    split
    · rfl
    · cases op.outputCount operand with
      | none => rfl
      | some outputs =>
        dsimp only
        split <;> rfl

end Call

namespace Frame

theorem close_move (f : Frame) (i : Nat) (nested : Bool) :
    (f.move g).close (g i) nested =
      (f.close i nested).map (Node.move g) (List.map (Problem.move g)) := by
  have hclosed : (f.move g).closed (g i) = (f.closed i).move g := rfl
  have hnode : ∀ c : Call, (Node.call c f.parameters.reverse []).move g =
      .call (c.move g) (f.move g).parameters.reverse [] := by
    intro c
    rw [Node.move, Node.moveAll_eq_map, List.map_reverse]
    rfl
  have hlength : (f.move g).parameters.reverse.length = f.parameters.reverse.length := by
    simp [move]
  have hentry : (f.move g).entry = f.entry := rfl
  have herror : (f.move g).operandError = f.operandError := rfl
  unfold close
  simp only [hclosed, hlength, hentry, herror, Call.resolve_move]
  cases f.operandError with
  | true => cases f.entry <;> simp [hnode]
  | false =>
    cases f.entry with
    | none => simp [hnode]
    | some op =>
      dsimp only
      cases (f.closed i).resolve op f.parameters.reverse.length nested with
      | error problems => simp [hnode, Except.mapError]
      | ok r =>
        simp only [Except.mapError, Prod.map, List.map_nil, hnode]
        rfl

theorem cut_move (f : Frame) {stop : Nat} (h : g stop - 1 = g (stop - 1)) :
    (f.move g).cut (g stop) = (f.cut stop).move g := by
  rw [cut, cut, Node.move, Node.moveAll_eq_map, List.map_reverse, h]
  rfl

end Frame

namespace Reading

theorem report_move (r : Reading) (p : Problem) :
    (r.report p).move g = (r.move g).report (p.move g) := rfl

theorem reportAll_move (r : Reading) (ps : List Problem) :
    (r.reportAll ps).move g = (r.move g).reportAll (ps.map (Problem.move g)) := by
  simp [reportAll, move]

theorem push_move (r : Reading) (n : Node) : (r.push n).move g = (r.move g).push (n.move g) := by
  obtain ⟨frames, nodes, dropped, problems⟩ := r
  cases frames <;> rfl

section Words

variable {w : Word} (h : w.Movable g)

include h

theorem callWord_move (r : Reading) (found : Option (UInt16 × Opcode)) :
    (r.callWord w found).move g = (r.move g).callWord (w.move g) found := by
  unfold callWord
  dsimp only
  rw [Word.operandProblems_move h, Word.lacksArguments_move, Word.operandError_move h,
    Word.call_move h]
  cases hp : w.paren with
  | none =>
    have hm : (w.move g).paren = none := by simp [Word.move, hp]
    simp only [hm, push_move]
    split
    · rw [reportAll_move]
      rfl
    split
    · rw [report_move, reportAll_move]
      rfl
    · rw [report_move, reportAll_move]
      rfl
  | some paren =>
    have hm : (w.move g).paren = some (g paren) := by simp [Word.move, hp]
    simp only [hm]
    split
    · simp only [move, report, reportAll, List.map_cons, List.map_append, List.map_reverse]
      rfl
    · simp only [move, reportAll, List.map_cons, List.map_append, List.map_reverse]
      rfl

theorem opcodeWord_move (ctx : Context) (r : Reading) :
    (r.opcodeWord ctx w).move g = (r.move g).opcodeWord ctx (w.move g) := by
  have hname : (w.move g).name = w.name := rfl
  unfold opcodeWord
  rw [hname, Word.isCall_move]
  cases ctx.table.lookup w.name with
  | some found => exact callWord_move h r (some found)
  | none =>
    dsimp only
    split
    · exact callWord_move h _ none
    · split <;> rfl

omit h in
theorem plainWord?_move (ctx : Context) (r : Reading) (w : Word) :
    (plainWord? ctx r w).map (move g) = plainWord? ctx (r.move g) (w.move g) := by
  have hname : (w.move g).name = w.name := rfl
  unfold plainWord?
  rw [hname, readValue_move]
  split
  · exact congrArg some (push_move r _)
  split
  · exact congrArg some (push_move _ _)
  split
  · cases readValue w with
    | ok n => exact congrArg some (push_move r _)
    | error p => exact congrArg some (push_move _ _)
  · rfl

theorem word_move (ctx : Context) (r : Reading) :
    (word ctx r w).move g = word ctx (r.move g) (w.move g) := by
  have hplain := plainWord?_move (g := g) ctx r w
  unfold word
  rw [Word.isCall_move, ← hplain]
  split
  · exact opcodeWord_move h ctx r
  · cases plainWord? ctx r w with
    | some r => rfl
    | none => exact opcodeWord_move h ctx r

end Words

theorem close_move (r : Reading) (i : Nat) : (r.close i).move g = (r.move g).close (g i) := by
  obtain ⟨frames, nodes, dropped, problems⟩ := r
  cases frames with
  | nil => rfl
  | cons f frames =>
    have hf := f.close_move (g := g) i (!frames.isEmpty)
    have hnested : (frames.map (Frame.move g)).isEmpty = frames.isEmpty := by simp
    simp only [close, push_move, reportAll_move]
    simp only [move, List.map_cons, hnested, hf]
    rfl

theorem step_move (ctx : Context) (r : Reading) {t : Token} (h : t.Movable g) :
    (step ctx r t).move g = step ctx (r.move g) (t.move g) := by
  cases t with
  | word w => exact word_move h ctx r
  | close i => exact close_move r i
  | _ => rfl

theorem foldl_step_move (ctx : Context) (r : Reading) {ts : List Token}
    (h : ∀ t ∈ ts, t.Movable g) :
    (ts.foldl (step ctx) r).move g = (ts.map (Token.move g)).foldl (step ctx) (r.move g) := by
  induction ts generalizing r with
  | nil => rfl
  | cons t ts ih =>
    rw [List.forall_mem_cons] at h
    rw [List.map_cons, List.foldl_cons, List.foldl_cons, ih _ h.2, step_move ctx r h.1]

theorem finishFrames_move {stop : Nat} (h : g stop - 1 = g (stop - 1)) (r : Reading)
    (inner : Option Node) (frames : List Frame) :
    (finishFrames stop r inner frames).move g =
      finishFrames (g stop) (r.move g) (inner.map (Node.move g)) (frames.map (Frame.move g)) := by
  have hlist : ∀ inner : Option Node,
      inner.toList.map (Node.move g) = (inner.map (Node.move g)).toList := by
    intro inner
    rw [Option.toList_map]
  induction frames generalizing r inner with
  | nil => simp [finishFrames, move, hlist]
  | cons f frames ih =>
    have hadd : Frame.move g { f with parameters := inner.toList ++ f.parameters } =
        { f.move g with
          parameters := (inner.map (Node.move g)).toList ++ (f.move g).parameters } := by
      simp [Frame.move, hlist]
    rw [List.map_cons, finishFrames, finishFrames, ih, ← hadd, Option.map_some, Frame.cut_move _ h]
    rfl

theorem read_move (ctx : Context) {right : Segment} (hstop : g right.stop - 1 = g (right.stop - 1))
    (h : ∀ t ∈ Token.scan right, t.Movable g) :
    (read ctx right).move g =
      (let r := ((Token.scan right).map (Token.move g)).foldl (step ctx) {}
       finishFrames (g right.stop) r none r.frames) := by
  have hfold := foldl_step_move ctx {} h
  have hempty : move g {} = {} := rfl
  rw [hempty] at hfold
  rw [read, finishFrames_move hstop, ← hfold]
  rfl

end Reading

theorem Node.outputCount?_move (n : Node) : (n.move g).outputCount? = n.outputCount? := by
  cases n <;> rfl

theorem Node.latest_move (tags labels : List Label) :
    (latest tags labels).map (Label.move g) =
      latest (tags.map (Label.move g)) (labels.map (Label.move g)) := by
  unfold latest
  rw [List.getLast?_map]
  cases labels.getLast? <;> rfl

theorem Node.attach_move (n : Node) (labels : List Label) :
    (n.attach labels).move g = (n.move g).attach (labels.map (Label.move g)) := by
  cases n <;> simp [attach, move, latest_move]

namespace Binding

def move (g : Nat → Nat) (b : Binding) : Binding :=
  ⟨b.labels.map (Label.move g), b.nodes.map (Node.move g), b.problems.map (Problem.move g)⟩

theorem step_move (b : Binding) (n : Node) (outputs : Nat) :
    (b.step n outputs).move g = (b.move g).step (n.move g) outputs := by
  have hn : (unnamed n).move g = unnamed (n.move g) := by
    cases n <;> rfl
  simp [step, move, n.attach_move, hn]

theorem bindAll_move (b : Binding) (nodes : List (Node × Nat)) :
    (b.bindAll nodes).move g = (b.move g).bindAll (nodes.map (Prod.map (Node.move g) id)) := by
  induction nodes generalizing b with
  | nil => rfl
  | cons p nodes ih =>
    obtain ⟨n, outputs⟩ := p
    have h := ih (b.step n outputs)
    rw [step_move] at h
    exact h

theorem bind_move (labels : List Label) (nodes : List Node) :
    (bind labels nodes).map (List.map (Node.move g)) (List.map (Problem.move g)) =
      bind (labels.map (Label.move g)) (nodes.map (Node.move g)) := by
  have hcounts : (nodes.map (Node.move g)).mapM Node.outputCount? =
      nodes.mapM Node.outputCount? := by
    rw [List.mapM_map]
    congr 1
    funext n
    exact n.outputCount?_move
  cases hc : nodes.mapM Node.outputCount? with
  | none => simp [bind, hcounts, hc]
  | some counts =>
    have hall := bindAll_move (g := g) { labels := labels } (nodes.zip counts)
    rw [← List.zip_map_left] at hall
    rw [bind_of_counts hc, bind_of_counts (hcounts.trans hc)]
    have hempty : move g { labels := labels } = { labels := labels.map (Label.move g) } := rfl
    rw [hempty] at hall
    have hunmatched : ∀ ls : List Label,
        (ls.map unmatched).map (Problem.move g) = (ls.map (Label.move g)).map unmatched := by
      intro ls
      rw [List.map_map, List.map_map]
      rfl
    simp only [← hall, Prod.map, move, List.map_append, List.map_reverse, hunmatched]

end Binding

namespace Scope

theorem declareAll_move (s : Scope) (labels : List Label) :
    s.declareAll (labels.map (Label.move g)) = s.declareAll labels := by
  rw [declareAll, List.foldl_map]
  rfl

theorem duplicates_move (s : Scope) (labels : List Label) :
    (s.duplicates labels).map (Problem.move g) = s.duplicates (labels.map (Label.move g)) := by
  rw [duplicates, duplicates, List.foldl_map, List.map_reverse]
  congr 1
  refine congrArg Prod.snd (List.foldl_hom (Prod.map id (List.map (Problem.move g))) ?_).symm
  rintro ⟨s, problems⟩ l
  have hl : (l.move g).isBindable = l.isBindable ∧ (l.move g).name = l.name := ⟨rfl, rfl⟩
  simp only [Prod.map, id_eq, hl]
  split <;> rfl

end Scope

theorem Segment.labelProblems_move (labels : List Label) :
    (labelProblems labels).map (Problem.move g) = labelProblems (labels.map (Label.move g)) := by
  simp only [labelProblems, List.filter_map, List.map_map]
  rfl

namespace Statement

def ofReading (scope : Scope) (p : Position) (labels : List Label) (r : Reading) :
    Statement × List Problem :=
  let (nodes, unbound) :=
    if r.dropped then (r.nodes.reverse, []) else Binding.bind labels r.nodes.reverse
  (⟨p, labels, nodes⟩,
    Segment.labelProblems labels ++ r.problems.reverse ++ unbound ++ scope.duplicates labels)

theorem ofSides_eq (table : Table) (scope : Scope) (p : Position) (left right : Segment) :
    ofSides table scope p left right = ofReading scope p left.labels
      (Reading.read ⟨table, scope, (left.labels.filter (·.isBindable)).map (·.name)⟩ right) :=
  rfl

theorem ofReading_move (scope : Scope) (p : Position) (labels : List Label) (r : Reading) :
    (ofReading scope p labels r).map (move g) (List.map (Problem.move g)) =
      ofReading scope (p.move g) (labels.map (Label.move g)) (r.move g) := by
  have hbind := Binding.bind_move (g := g) labels r.nodes.reverse
  rw [List.map_reverse] at hbind
  have hdropped : (r.move g).dropped = r.dropped := rfl
  have hnodes : (r.move g).nodes = r.nodes.map (Node.move g) := rfl
  have hproblems : (r.move g).problems = r.problems.map (Problem.move g) := rfl
  unfold ofReading
  simp only [hdropped, hnodes, hproblems, ← hbind, Prod.map, List.map_append, List.map_reverse,
    Segment.labelProblems_move, Scope.duplicates_move, move]
  split <;> simp

theorem pending_move (labels : List Label) :
    ((labels.map (Label.move g)).filter (·.isBindable)).map (·.name) =
      (labels.filter (·.isBindable)).map (·.name) := by
  rw [List.filter_map, List.map_map]
  rfl

end Statement

end Wordcode
