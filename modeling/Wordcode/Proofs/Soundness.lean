import Wordcode.Proofs.Typing

namespace Wordcode

theorem readArgument_le {item : Label} {a : Argument} (h : readArgument item = .ok a) :
    a.value ≤ maxArgument := by
  unfold readArgument at h
  split at h
  · simp at h
  · split at h
    · split at h
      · simp only [Except.ok.injEq] at h
        subst h
        assumption
      · simp at h
    · simp at h

theorem readValue_ok {w : Word} {n : Nat} (h : readValue w = .ok n) :
    Literal.read w.name = .ok n := by
  unfold readValue at h
  split at h
  · rename_i m hm
    simpa [hm] using h
  · simp at h
  · simp at h

namespace Word

theorem arguments_le (w : Word) : ∀ a ∈ w.arguments.map (·.value), a ≤ maxArgument := by
  intro v hv
  obtain ⟨a, ha, rfl⟩ := List.mem_map.mp hv
  unfold arguments at ha
  split at ha
  · rename_i t _
    simp only [OperandText.arguments, OperandText.results, List.mem_filterMap, List.mem_map] at ha
    obtain ⟨result, ⟨item, _, rfl⟩, hr⟩ := ha
    split at hr
    · rename_i b hb
      simp only [Option.some.injEq] at hr
      subst hr
      exact readArgument_le hb
    · simp at hr
  · simp at ha

theorem operand_agrees {w : Word} {op : Opcode} (h : w.operandProblems (some op) = [])
    (hl : w.lacksArguments (some op) = false) :
    w.operandError (some op) = false ∧ w.arguments.length = op.arity := by
  cases ho : w.operand with
  | none =>
    have ht : op.takesArguments = false := by simpa [lacksArguments, ho] using hl
    have ha : op.arity = 0 := by simpa [Opcode.takesArguments] using ht
    exact ⟨by simp [operandError, ho, ht], by simp [arguments, ho, ha]⟩
  | some t =>
    simp only [operandProblems, ho, List.append_eq_nil_iff] at h
    have hg : t.isGood = true := by simp [OperandText.isGood, h.1]
    have hm : t.arguments.length = op.arity := by
      have hn := h.2
      simp only [Option.bind_some, OperandText.mismatch?, hg, Bool.true_and] at hn
      split at hn
      · simp at hn
      · rename_i hne
        simpa using hne
    exact ⟨by simp [operandError, ho, hg, hm], by simp [arguments, ho, hm]⟩

end Word

namespace Call

theorem badItem_isSome (c : Call) (params : Nat) {items : List OperandItem} {i : Nat}
    (h : i < items.length) : (c.badItem params items i).isSome = true := by
  unfold badItem
  rw [List.getElem?_eq_getElem h]
  dsimp only
  split <;> rfl

theorem resolve_ok {c : Call} {op : Opcode} {params : Nat} {nested : Bool} {r : Resolution}
    (h : c.resolve op params nested = .ok r) :
    op.packOperand (c.arguments.map (·.value)) params = .ok r.operand ∧
      op.inputCount r.operand = some params ∧ op.outputCount r.operand = some r.outputs ∧
      (nested = true → r.outputs = 1) := by
  unfold resolve at h
  split at h
  · simp at h
  · rename_i operand hp
    split at h
    · simp at h
    · rename_i hi
      split at h
      · simp at h
      · rename_i outputs ho
        split at h
        · simp at h
        · rename_i hn
          simp only [Except.ok.injEq] at h
          subst h
          refine ⟨hp, by simpa using hi, ho, ?_⟩
          rintro rfl
          simpa using hn

theorem resolve_error {c : Call} {op : Opcode} {params : Nat} {nested : Bool}
    {problems : List Problem} (h : c.resolve op params nested = .error problems) :
    problems ≠ [] := by
  unfold resolve at h
  split at h
  · rename_i indices hp
    obtain ⟨hne, hlt⟩ := Opcode.packOperand_eq_error hp
    simp only [Except.error.injEq] at h
    subst h
    intro hn
    obtain ⟨i, hi⟩ := List.exists_mem_of_ne_nil indices hne
    have hs := badItem_isSome c params (hlt i hi)
    rw [List.filterMap_eq_nil_iff] at hn
    rw [hn i hi] at hs
    simp at hs
  · split at h
    · simp only [Except.error.injEq] at h
      simp [← h]
    · split at h
      · simp only [Except.error.injEq] at h
        simp [← h]
      · split at h
        · simp only [Except.error.injEq] at h
          simp [← h]
        · simp at h

end Call

/-- An open call that can be resolved when it is closed, as far as it is read. -/
structure Frame.Typed (table : Table) (scope : Scope) (f : Frame) : Prop where
  opens : ∃ number op, table.lookup f.call.name = some (number, op) ∧
    f.call.opcode = some number ∧ f.entry = some op ∧ f.call.arguments.length = op.arity
  bounded : ∀ a ∈ f.call.arguments.map (·.value), a ≤ maxArgument
  accepted : f.operandError = false
  parameters : Node.Typed table scope true f.parameters

theorem Frame.Typed.close {table : Table} {scope : Scope} {f : Frame} (h : f.Typed table scope)
    {i : Nat} {nested : Bool} (hp : (f.close i nested).2 = []) :
    Node.Typed table scope nested [(f.close i nested).1] := by
  obtain ⟨number, op, hl, ho, he, ha⟩ := h.opens
  cases hr : (f.closed i).resolve op f.parameters.length nested with
  | error problems =>
    have hn := Call.resolve_error hr
    simp [Frame.close, he, h.accepted, hr] at hp
    exact absurd hp hn
  | ok r =>
    obtain ⟨hpack, hin, hout, hone⟩ := Call.resolve_ok hr
    have hc : (f.close i nested).1 =
        .call ((f.closed i).resolved r) f.parameters.reverse [] := by
      simp [Frame.close, he, h.accepted, hr]
    rw [hc]
    rw [← List.length_reverse] at hpack hin
    refine .call hl ho ⟨rfl, rfl⟩ ⟨?_, h.bounded, hpack, hin, hout⟩ hone h.parameters.reverse .nil
    simpa [Frame.closed, Call.resolved] using ha

theorem Frame.exists_close (f : Frame) (i : Nat) (nested : Bool) :
    ∃ operand outputs, (f.close i nested).1 = .call
      { f.closed i with operand := operand, outputs := outputs } f.parameters.reverse [] := by
  unfold Frame.close
  dsimp only
  repeat' split
  all_goals exact ⟨_, _, rfl⟩

namespace Reading

/-- The right side of a statement while nothing is wrong with it. -/
structure Sound (ctx : Context) (r : Reading) : Prop where
  kept : r.dropped = false
  nodes : Node.Typed ctx.table ctx.scope false r.nodes
  frames : ∀ f ∈ r.frames, f.Typed ctx.table ctx.scope

variable {ctx : Context} {r : Reading}

theorem report_problems (r : Reading) (p : Problem) : r.problems <:+ (r.report p).problems :=
  List.suffix_cons _ _

theorem push_problems (r : Reading) (n : Node) : (r.push n).problems = r.problems := by
  unfold push
  split <;> rfl

theorem Sound.push (h : r.Sound ctx) {n : Node}
    (hn : Node.Typed ctx.table ctx.scope (!r.frames.isEmpty) [n]) : (r.push n).Sound ctx := by
  unfold Reading.push
  split
  · rename_i hf
    rw [hf] at hn
    exact ⟨h.kept, hn.cons h.nodes, fun f hm => h.frames f hm⟩
  · rename_i f frames hf
    rw [hf] at hn
    have ht := h.frames f (by simp [hf])
    refine ⟨h.kept, h.nodes, ?_⟩
    intro g hg
    rcases List.mem_cons.mp hg with rfl | hm
    · exact ⟨ht.opens, ht.bounded, ht.accepted, hn.cons ht.parameters⟩
    · exact h.frames g (by simp [hf, hm])

theorem callWord_problems (r : Reading) (w : Word) (found : Option (UInt16 × Opcode)) :
    r.problems <:+ (r.callWord w found).problems := by
  have hr : r.problems <:+ (r.reportAll (w.operandProblems (found.map (·.2)))).problems :=
    List.suffix_append _ _
  unfold callWord
  dsimp only
  split
  · dsimp only
    split
    · exact hr.trans (List.suffix_cons _ _)
    · exact hr
  · rw [push_problems]
    split
    · exact hr
    · split
      · exact hr.trans (List.suffix_cons _ _)
      · exact hr.trans (List.suffix_cons _ _)

theorem opcodeWord_problems (ctx : Context) (r : Reading) (w : Word) :
    r.problems <:+ (r.opcodeWord ctx w).problems := by
  unfold opcodeWord
  split
  · exact callWord_problems r w _
  · split
    · exact (report_problems r _).trans (callWord_problems _ w none)
    · exact List.suffix_cons _ _

theorem plainWord?_problems {w : Word} {r' : Reading} (h : plainWord? ctx r w = some r') :
    r.problems <:+ r'.problems := by
  unfold plainWord? at h
  split at h
  · simp only [Option.some.injEq] at h
    rw [← h, push_problems]
  · split at h
    · simp only [Option.some.injEq] at h
      rw [← h, push_problems]
      exact List.suffix_cons _ _
    · split at h
      · split at h
        · simp only [Option.some.injEq] at h
          rw [← h, push_problems]
        · simp only [Option.some.injEq] at h
          rw [← h, push_problems]
          exact List.suffix_cons _ _
      · simp at h

theorem word_problems (ctx : Context) (r : Reading) (w : Word) :
    r.problems <:+ (word ctx r w).problems := by
  unfold word
  split
  · exact opcodeWord_problems ctx r w
  · split
    · rename_i r' h
      exact plainWord?_problems h
    · exact opcodeWord_problems ctx r w

theorem close_problems (r : Reading) (i : Nat) : r.problems <:+ (r.close i).problems := by
  unfold close
  split
  · exact List.suffix_cons _ _
  · rw [push_problems]
    exact List.suffix_append _ _

theorem step_problems (ctx : Context) (r : Reading) (t : Token) :
    r.problems <:+ (step ctx r t).problems := by
  cases t with
  | word w => exact word_problems ctx r w
  | close i => exact close_problems r i
  | group i => exact List.suffix_cons _ _
  | operand p => exact List.suffix_cons _ _
  | closeAngle i => exact List.suffix_cons _ _
  | comma i => exact List.suffix_cons _ _
  | illegal c i => exact List.suffix_cons _ _

theorem callWord_opens (r : Reading) {w : Word} {number : UInt16} {op : Opcode} {paren : Nat}
    (hw : w.paren = some paren) (ho : w.operandProblems (some op) = [])
    (hl : w.lacksArguments (some op) = false) :
    r.callWord w (some (number, op)) =
      { r with frames := ⟨w.call (some number), some op, paren, false, []⟩ :: r.frames } := by
  have he := (Word.operand_agrees ho hl).1
  simp [callWord, hw, ho, hl, he, reportAll]

theorem callWord_problems_eq_nil {w : Word} {number : UInt16} {op : Opcode}
    (h : (r.callWord w (some (number, op))).problems = []) :
    ∃ paren, w.paren = some paren ∧ w.operandProblems (some op) = [] ∧
      w.lacksArguments (some op) = false := by
  unfold callWord at h
  cases hw : w.paren with
  | none =>
    simp only [hw, push_problems, Option.map_some, Option.isNone_some] at h
    split at h
    · rename_i hn
      exact absurd hn (by simp)
    · split at h
      · simp [report] at h
      · simp [report] at h
  | some paren =>
    simp only [hw, Option.map_some] at h
    split at h
    · simp [report] at h
    · rename_i hl
      simp only [reportAll, List.append_eq_nil_iff, List.reverse_eq_nil_iff] at h
      exact ⟨paren, rfl, h.1, by simpa using hl⟩

theorem Sound.callWord (h : r.Sound ctx) {w : Word} {number : UInt16} {op : Opcode}
    (hl : ctx.table.lookup w.name = some (number, op))
    (hp : (r.callWord w (some (number, op))).problems = []) :
    (r.callWord w (some (number, op))).Sound ctx := by
  obtain ⟨paren, hw, ho, ha⟩ := callWord_problems_eq_nil hp
  rw [callWord_opens r hw ho ha]
  refine ⟨h.kept, h.nodes, ?_⟩
  intro f hf
  rcases List.mem_cons.mp hf with rfl | hm
  · exact ⟨⟨number, op, hl, rfl, rfl, (Word.operand_agrees ho ha).2⟩, w.arguments_le, rfl, .nil⟩
  · exact h.frames f hm

theorem Sound.opcodeWord (h : r.Sound ctx) {w : Word}
    (hp : (r.opcodeWord ctx w).problems = []) : (r.opcodeWord ctx w).Sound ctx := by
  unfold Reading.opcodeWord at hp ⊢
  cases hl : ctx.table.lookup w.name with
  | some found =>
    rw [hl] at hp
    exact h.callWord hl hp
  | none =>
    simp only [hl] at hp
    split at hp
    · have hs := callWord_problems
        (r.report ⟨.undefinedOpcode, "undefined opcode: " ++ w.name, w.position⟩) w none
      rw [hp] at hs
      simp [report] at hs
    · simp [report] at hp

theorem Sound.plainWord? (h : r.Sound ctx) {w : Word} {r' : Reading}
    (hr : plainWord? ctx r w = some r') (hp : r'.problems = []) : r'.Sound ctx := by
  unfold Reading.plainWord? at hr
  split at hr
  · rename_i hs
    simp only [Option.some.injEq] at hr
    subst hr
    exact h.push (.reference hs .nil)
  · split at hr
    · simp only [Option.some.injEq] at hr
      subst hr
      simp [push_problems, report] at hp
    · split at hr
      · split at hr
        · rename_i n hn
          simp only [Option.some.injEq] at hr
          subst hr
          exact h.push (.value (readValue_ok hn) .nil)
        · simp only [Option.some.injEq] at hr
          subst hr
          simp [push_problems, report] at hp
      · simp at hr

theorem Sound.word (h : r.Sound ctx) {w : Word} (hp : (word ctx r w).problems = []) :
    (word ctx r w).Sound ctx := by
  unfold Reading.word at hp ⊢
  split
  · rename_i hc
    rw [if_pos hc] at hp
    exact h.opcodeWord hp
  · rename_i hc
    rw [if_neg hc] at hp
    cases hr : Reading.plainWord? ctx r w with
    | some r' =>
      rw [hr] at hp
      exact h.plainWord? hr hp
    | none =>
      rw [hr] at hp
      exact h.opcodeWord hp

theorem Sound.close (h : r.Sound ctx) {i : Nat} (hp : (r.close i).problems = []) :
    (r.close i).Sound ctx := by
  unfold Reading.close at hp ⊢
  cases hf : r.frames with
  | nil => simp [hf, report] at hp
  | cons f frames =>
    simp only [hf, push_problems, reportAll, List.append_eq_nil_iff,
      List.reverse_eq_nil_iff] at hp
    have hn := (h.frames f (by simp [hf])).close hp.1
    have hs : ({ r with frames := frames }.reportAll (f.close i (!frames.isEmpty)).2).Sound ctx :=
      ⟨h.kept, h.nodes, fun g hg => h.frames g (by rw [hf]; exact List.mem_cons_of_mem f hg)⟩
    exact hs.push hn

theorem Sound.step (h : r.Sound ctx) {t : Token} (hp : (step ctx r t).problems = []) :
    (step ctx r t).Sound ctx := by
  cases t with
  | word w => exact h.word hp
  | close i => exact h.close hp
  | group i => simp [Reading.step, report] at hp
  | operand p => simp [Reading.step, report] at hp
  | closeAngle i => simp [Reading.step, report] at hp
  | comma i => simp [Reading.step, report] at hp
  | illegal c i => simp [Reading.step, report] at hp

theorem foldl_step_problems (ctx : Context) (r : Reading) (ts : List Token) :
    r.problems <:+ (ts.foldl (step ctx) r).problems := by
  induction ts generalizing r with
  | nil => exact List.suffix_refl _
  | cons t ts ih => exact (step_problems ctx r t).trans (ih _)

theorem Sound.foldl_step (h : r.Sound ctx) {ts : List Token}
    (hp : (ts.foldl (Reading.step ctx) r).problems = []) :
    (ts.foldl (Reading.step ctx) r).Sound ctx := by
  induction ts generalizing r with
  | nil => exact h
  | cons t ts ih =>
    have hs := foldl_step_problems ctx (Reading.step ctx r t) ts
    rw [List.foldl_cons] at hp
    rw [hp, List.suffix_nil] at hs
    exact ih (h.step hs) hp

theorem finishFrames_problems (stop : Nat) (r : Reading) (inner : Option Node)
    (frames : List Frame) : r.problems <:+ (finishFrames stop r inner frames).problems := by
  induction frames generalizing r inner with
  | nil => exact List.suffix_refl _
  | cons f frames ih => exact (report_problems r f.unclosed).trans (ih _ _)

theorem finishFrames_reports (stop : Nat) (r : Reading) (inner : Option Node) (f : Frame)
    (frames : List Frame) : (finishFrames stop r inner (f :: frames)).problems ≠ [] := by
  intro h
  have hs : (r.report f.unclosed).problems <:+
      (finishFrames stop r inner (f :: frames)).problems := finishFrames_problems stop _ _ frames
  rw [h] at hs
  simp [report] at hs

theorem read_eq (ctx : Context) (right : Segment) :
    read ctx right =
      finishFrames right.stop ((Token.scan right).foldl (step ctx) {}) none
        ((Token.scan right).foldl (step ctx) {}).frames := rfl

theorem read_sound {right : Segment} (hp : (read ctx right).problems = []) :
    (read ctx right).dropped = false ∧
      Node.Typed ctx.table ctx.scope false (read ctx right).nodes := by
  rw [read_eq] at hp ⊢
  generalize hr : (Token.scan right).foldl (step ctx) {} = r at hp ⊢
  cases hf : r.frames with
  | nil =>
    rw [hf] at hp
    have hs : r.Sound ctx := by
      subst hr
      exact Sound.foldl_step ⟨rfl, .nil, by simp⟩ hp
    exact ⟨hs.kept, hs.nodes⟩
  | cons f frames =>
    rw [hf] at hp
    exact absurd hp (finishFrames_reports _ _ _ _ _)

def Keeps (r r' : Reading) : Prop :=
  r'.frames = r.frames ∧ r'.nodes = r.nodes

/-- What a token does to a reading, with the word that it was read from. A token that adds nothing
is reported. -/
inductive Act (table : Table) (r : Reading) : Token → Reading → Prop
  | keep {t : Token} {r' : Reading} : r.Keeps r' → r'.problems ≠ [] → Act table r t r'
  | value {w : Word} {r' : Reading} {v : Option Nat} : w.isCall = false → r.Keeps r' →
      Act table r (.word w) (r'.push (.value w.name v w.position []))
  | reference {w : Word} {r' : Reading} : w.isCall = false → r.Keeps r' →
      Act table r (.word w) (r'.push (.reference w.name w.position []))
  | plain {w : Word} {r' : Reading} {number : Option UInt16} : w.paren = none → r.Keeps r' →
      Act table r (.word w) (r'.push (.call (w.call number) [] []))
  | opens {w : Word} {r' : Reading} {found : Option (UInt16 × Opcode)} {paren : Nat} :
      w.paren = some paren →
      (∀ number op, found = some (number, op) → table.lookup w.name = some (number, op)) →
      r'.frames = ⟨w.call (found.map (·.1)), found.map (·.2), paren,
        w.operandError (found.map (·.2)), []⟩ :: r.frames → r'.nodes = r.nodes →
      Act table r (.word w) r'
  | closes {r' : Reading} {f : Frame} {frames : List Frame} {i : Nat} : r.frames = f :: frames →
      Keeps { r with frames := frames } r' →
      Act table r (.close i) (r'.push (f.close i (!frames.isEmpty)).1)

theorem callWord_act {table : Table} {r' : Reading} (h : r.Keeps r') {w : Word}
    {found : Option (UInt16 × Opcode)}
    (hl : ∀ number op, found = some (number, op) → table.lookup w.name = some (number, op)) :
    Act table r (.word w) (r'.callWord w found) := by
  unfold callWord
  dsimp only
  split
  · rename_i paren hp
    refine .opens hp hl ?_ ?_
    · split <;> exact congrArg _ h.1
    · split <;> exact h.2
  · rename_i hp
    apply Act.plain hp
    repeat' split
    all_goals exact h

theorem opcodeWord_act (r : Reading) (w : Word) :
    Act ctx.table r (.word w) (r.opcodeWord ctx w) := by
  unfold opcodeWord
  split
  · rename_i found hl
    apply callWord_act ⟨rfl, rfl⟩
    intro number op he
    rw [hl, he]
  · split
    · refine callWord_act ?_ ?_
      · exact ⟨rfl, rfl⟩
      · intro number op he
        cases he
    · exact .keep ⟨rfl, rfl⟩ (List.cons_ne_nil _ _)

theorem plainWord?_act {table : Table} {w : Word} {r' : Reading} (hw : w.isCall = false)
    (h : plainWord? ctx r w = some r') : Act table r (.word w) r' := by
  unfold plainWord? at h
  repeat' split at h
  · cases h
    exact .reference hw ⟨rfl, rfl⟩
  · cases h
    exact .reference hw ⟨rfl, rfl⟩
  · cases h
    exact .value hw ⟨rfl, rfl⟩
  · cases h
    exact .value hw ⟨rfl, rfl⟩
  · cases h

theorem word_act (r : Reading) (w : Word) : Act ctx.table r (.word w) (word ctx r w) := by
  unfold word
  split
  · exact opcodeWord_act r w
  · rename_i hw
    split
    · rename_i r' h
      exact plainWord?_act (by simpa using hw) h
    · exact opcodeWord_act r w

theorem close_act {table : Table} (r : Reading) (i : Nat) :
    Act table r (.close i) (r.close i) := by
  unfold close
  split
  · exact .keep ⟨rfl, rfl⟩ (List.cons_ne_nil _ _)
  · rename_i f frames hf
    exact .closes hf ⟨rfl, rfl⟩

theorem step_act (r : Reading) (t : Token) : Act ctx.table r t (step ctx r t) := by
  cases t with
  | word w => exact word_act r w
  | close i => exact close_act r i
  | group i => exact .keep ⟨rfl, rfl⟩ (List.cons_ne_nil _ _)
  | operand p => exact .keep ⟨rfl, rfl⟩ (List.cons_ne_nil _ _)
  | closeAngle i => exact .keep ⟨rfl, rfl⟩ (List.cons_ne_nil _ _)
  | comma i => exact .keep ⟨rfl, rfl⟩ (List.cons_ne_nil _ _)
  | illegal c i => exact .keep ⟨rfl, rfl⟩ (List.cons_ne_nil _ _)

theorem foldl_step_induction {P : Reading → Prop}
    (hact : ∀ r t r', P r → Act ctx.table r t r' → P r') (hr : P r) (ts : List Token) :
    P (ts.foldl (step ctx) r) := by
  induction ts generalizing r with
  | nil => exact hr
  | cons t ts ih => exact ih (hact _ _ _ hr (step_act r t))

end Reading

end Wordcode
