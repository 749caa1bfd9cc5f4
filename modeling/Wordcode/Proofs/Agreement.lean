import Wordcode.Proofs.Documents

namespace Wordcode

/-- The call has neither operand nor outputs, or it agrees with its opcode. -/
inductive Call.Agrees (table : Table) (nested : Bool) (params : Nat) (c : Call) : Prop
  | unresolved : c.operand = none → c.outputs = none → Agrees table nested params c
  | resolved {r : Resolution} {number : UInt16} {op : Opcode} : c.Resolves r →
      table.lookup c.name = some (number, op) → c.opcode = some number →
      op.Accepts (c.arguments.map (·.value)) params r.operand r.outputs →
      (nested = true → r.outputs = 1) → Agrees table nested params c

namespace Call.Agrees

variable {table : Table} {nested : Bool} {params : Nat} {c : Call}

theorem isSome_eq (h : c.Agrees table nested params) : c.operand.isSome = c.outputs.isSome := by
  cases h with
  | unresolved ho hu => rw [ho, hu]; rfl
  | resolved hr _ _ _ _ => rw [hr.operand, hr.outputs]; rfl

theorem accepts (h : c.Agrees table nested params) {operand : UInt16}
    (ho : c.operand = some operand) :
    ∃ number op outputs, table.lookup c.name = some (number, op) ∧ c.opcode = some number ∧
      c.outputs = some outputs ∧ op.Accepts (c.arguments.map (·.value)) params operand outputs ∧
      (nested = true → outputs = 1) := by
  cases h with
  | unresolved hnone _ =>
    rw [hnone] at ho
    cases ho
  | @resolved r number op hr hl hn hacc hone =>
    rw [hr.operand, Option.some.injEq] at ho
    subst ho
    exact ⟨number, op, r.outputs, hl, hn, hr.outputs, hacc, hone⟩

end Call.Agrees

namespace Node

/-- Every call that is resolved agrees with its opcode, at any depth and whatever is wrong with the
calls around it. -/
inductive Checked (table : Table) : Bool → Node → Prop
  | value {nested : Bool} {raw : String} {v : Option Nat} {p : Position} {tags : List Label} :
      Checked table nested (.value raw v p tags)
  | reference {nested : Bool} {name : String} {p : Position} {tags : List Label} :
      Checked table nested (.reference name p tags)
  | call {nested : Bool} {head : Call} {params : List Node} {tags : List Label} :
      head.Agrees table nested params.length → (∀ p ∈ params, Checked table true p) →
      Checked table nested (.call head params tags)

variable {table : Table} {nested : Bool}

theorem Checked.attach {n : Node} (h : n.Checked table nested) (labels : List Label) :
    (n.attach labels).Checked table nested := by
  cases h with
  | value => exact .value
  | reference => exact .reference
  | call ha hp => exact .call ha hp

theorem Checked.of_occurs {n root : Node} (ho : n.Occurs root) (h : root.Checked table nested) :
    ∃ b, n.Checked table b := by
  induction ho generalizing nested with
  | self => exact ⟨nested, h⟩
  | parameter hm _ ih =>
    cases h with
    | call _ hp => exact ih (hp _ hm)

end Node

theorem Word.length_arguments {w : Word} {op : Opcode} (h : w.operandError (some op) = false) :
    w.arguments.length = op.arity := by
  cases ho : w.operand with
  | none =>
    have ha : op.arity = 0 := by simpa [operandError, ho, Opcode.takesArguments] using h
    simp [arguments, ho, ha]
  | some t =>
    simp only [operandError, ho, Bool.or_eq_false_iff, bne_eq_false_iff_eq] at h
    simpa [arguments, ho] using h.2

namespace Frame

/-- What is known of an open call: it is not resolved yet, and if nothing speaks against its
operand then its name and its arguments are those of an opcode. -/
structure Checked (table : Table) (f : Frame) : Prop where
  operand : f.call.operand = none
  outputs : f.call.outputs = none
  opens : ∀ op, f.entry = some op → f.operandError = false → ∃ number,
    table.lookup f.call.name = some (number, op) ∧ f.call.opcode = some number ∧
      f.call.arguments.length = op.arity
  bounded : ∀ a ∈ f.call.arguments.map (·.value), a ≤ maxArgument
  parameters : ∀ n ∈ f.parameters, n.Checked table true

variable {table : Table} {f : Frame}

theorem Checked.close (h : f.Checked table) (i : Nat) (nested : Bool) :
    (f.close i nested).1.Checked table nested := by
  have hp : ∀ p ∈ f.parameters.reverse, p.Checked table true :=
    fun p hm => h.parameters p (List.mem_reverse.mp hm)
  unfold Frame.close
  dsimp only
  split
  · rename_i op he herr
    split
    · rename_i r hr
      obtain ⟨number, hl, ho, ha⟩ := h.opens op he herr
      obtain ⟨hpack, hin, hout, hone⟩ := Call.resolve_ok hr
      refine .call (.resolved ⟨rfl, rfl⟩ hl ho ⟨?_, h.bounded, hpack, hin, hout⟩ hone) hp
      simpa [closed, Call.resolved] using ha
    · exact .call (.unresolved h.operand h.outputs) hp
  · exact .call (.unresolved h.operand h.outputs) hp

theorem Checked.cut (h : f.Checked table) (stop : Nat) (nested : Bool) :
    (f.cut stop).Checked table nested :=
  .call (.unresolved h.operand h.outputs) fun p hm => h.parameters p (List.mem_reverse.mp hm)

theorem Checked.add (h : f.Checked table) (ns : List Node)
    (hn : ∀ n ∈ ns, n.Checked table true) :
    Checked table { f with parameters := ns ++ f.parameters } := by
  refine ⟨h.operand, h.outputs, h.opens, h.bounded, ?_⟩
  rw [List.forall_mem_append]
  exact ⟨hn, h.parameters⟩

theorem checked_of_word {w : Word} {found : Option (UInt16 × Opcode)}
    (hl : ∀ number op, found = some (number, op) → table.lookup w.name = some (number, op))
    (paren : Nat) :
    Checked table
      ⟨w.call (found.map (·.1)), found.map (·.2), paren, w.operandError (found.map (·.2)), []⟩ := by
  refine ⟨rfl, rfl, ?_, w.arguments_le, by simp⟩
  intro op he herr
  obtain ⟨⟨number, op'⟩, rfl, rfl⟩ := Option.map_eq_some_iff.mp he
  exact ⟨number, hl number op' rfl, rfl, Word.length_arguments herr⟩

end Frame

namespace Reading

structure Checked (table : Table) (r : Reading) : Prop where
  nodes : ∀ n ∈ r.nodes, n.Checked table false
  frames : ∀ f ∈ r.frames, f.Checked table

variable {table : Table} {r : Reading}

theorem Checked.of_keeps (h : r.Checked table) {r' : Reading} (hk : r.Keeps r') :
    r'.Checked table := by
  refine ⟨?_, ?_⟩
  · rw [hk.2]
    exact h.nodes
  · rw [hk.1]
    exact h.frames

theorem Checked.push (h : r.Checked table) {n : Node} (hn : n.Checked table (!r.frames.isEmpty)) :
    (r.push n).Checked table := by
  unfold Reading.push
  split
  · rename_i hf
    rw [hf] at hn
    exact ⟨List.forall_mem_cons.mpr ⟨hn, h.nodes⟩, h.frames⟩
  · rename_i f frames hf
    rw [hf] at hn
    have hall := h.frames
    rw [hf, List.forall_mem_cons] at hall
    refine ⟨h.nodes, List.forall_mem_cons.mpr ⟨?_, hall.2⟩⟩
    exact hall.1.add [n] (by simpa using hn)

theorem Checked.act {t : Token} {r' : Reading} (h : r.Checked table) (ha : Act table r t r') :
    r'.Checked table := by
  cases ha with
  | keep hk _ => exact h.of_keeps hk
  | value _ hk => exact (h.of_keeps hk).push .value
  | reference _ hk => exact (h.of_keeps hk).push .reference
  | plain _ hk => exact (h.of_keeps hk).push (.call (.unresolved rfl rfl) (by simp))
  | opens _ hl hf hn =>
    refine ⟨by rw [hn]; exact h.nodes, ?_⟩
    rw [hf, List.forall_mem_cons]
    exact ⟨Frame.checked_of_word hl _, h.frames⟩
  | @closes r' f frames i hf hk =>
    have hall := h.frames
    rw [hf, List.forall_mem_cons] at hall
    have hrest : Reading.Checked table { r with frames := frames } := ⟨h.nodes, hall.2⟩
    apply (hrest.of_keeps hk).push
    rw [hk.1]
    exact hall.1.close i (!frames.isEmpty)

theorem checked_finishFrames (stop : Nat) {frames : List Frame}
    (hn : ∀ n ∈ r.nodes, n.Checked table false) (hf : ∀ f ∈ frames, f.Checked table)
    {inner : Option Node} (hi : ∀ n ∈ inner, ∀ nested, n.Checked table nested) :
    ∀ n ∈ (finishFrames stop r inner frames).nodes, n.Checked table false := by
  induction frames generalizing r inner with
  | nil =>
    rw [finishFrames, List.forall_mem_append]
    exact ⟨fun n hm => hi n (Option.mem_toList.mp hm) false, hn⟩
  | cons f frames ih =>
    rw [List.forall_mem_cons] at hf
    have hadd := hf.1.add inner.toList fun n hm => hi n (Option.mem_toList.mp hm) true
    rw [finishFrames]
    refine ih (r := r.report _) hn hf.2 ?_
    -- a call that the end cuts off stays unresolved, so that it may go anywhere
    intro n hm nested
    obtain rfl := Option.mem_some.mp hm
    exact hadd.cut stop nested

theorem checked_foldl (ctx : Context) (ts : List Token) :
    Reading.Checked ctx.table (ts.foldl (step ctx) {}) :=
  foldl_step_induction (fun _ _ _ h => h.act) ⟨by simp, by simp⟩ ts

theorem checked_read (ctx : Context) (right : Segment) :
    ∀ n ∈ (read ctx right).nodes, n.Checked ctx.table false := by
  have h := checked_foldl ctx (Token.scan right)
  exact checked_finishFrames right.stop h.nodes h.frames (by simp)

end Reading

namespace Statement

variable {table : Table}

theorem checked_ofSides (scope : Scope) (position : Position) (left right : Segment) :
    ∀ n ∈ (ofSides table scope position left right).1.nodes, n.Checked table false := by
  have hread := Reading.checked_read
    ⟨table, scope, (left.labels.filter (·.isBindable)).map (·.name)⟩ right
  unfold ofSides
  dsimp only
  split
  · exact fun n hm => hread n (List.mem_reverse.mp hm)
  · intro n' hm
    obtain ⟨n, hn, labels, rfl⟩ := forall₂_mem_right (Binding.bind_nodes left.labels _) hm
    exact (hread n (List.mem_reverse.mp hn)).attach labels

end Statement

namespace Document

theorem checked_read {table : Table} {text : List Char} :
    ∀ source ∈ (read table text).sources, ∀ s ∈ source.statements, ∀ n ∈ s.nodes,
      n.Checked table false := by
  intro source hsource s hs
  obtain ⟨scope, -, -, segment, -, left, right, -, -, rfl, -⟩ := exists_ofSides hsource hs
  exact Statement.checked_ofSides scope _ left right

/-- Whatever is wrong with a text, a call in it has an operand just when it has outputs, and then it
agrees with the opcode of its name: it has the arguments that the opcode takes, they are packed to
its operand, and the operand gives the numbers of its parameters and outputs. A parameter that has
an operand has one output. -/
theorem read_resolved_accepts (table : Table) (text : List Char) (source : Source)
    (hsource : source ∈ (read table text).sources) (s : Statement) (hs : s ∈ source.statements)
    (root : Node) (hroot : root ∈ s.nodes) (head : Call) (params : List Node) (tags : List Label)
    (ho : (Node.call head params tags).Occurs root) :
    head.operand.isSome = head.outputs.isSome ∧
      (∀ operand, head.operand = some operand → ∃ number op outputs,
        table.lookup head.name = some (number, op) ∧ head.opcode = some number ∧
          head.outputs = some outputs ∧
          op.Accepts (head.arguments.map (·.value)) params.length operand outputs) ∧
      ∀ inner innerParams innerTags, .call inner innerParams innerTags ∈ params →
        ∀ operand, inner.operand = some operand → inner.outputs = some 1 := by
  obtain ⟨nested, hc⟩ := (checked_read source hsource s hs root hroot).of_occurs ho
  cases hc with
  | call ha hp =>
    refine ⟨ha.isSome_eq, fun operand hr => ?_, ?_⟩
    · obtain ⟨number, op, outputs, hl, hn, hout, hacc, -⟩ := ha.accepts hr
      exact ⟨number, op, outputs, hl, hn, hout, hacc⟩
    · intro inner innerParams innerTags hm operand hr
      cases hp _ hm with
      | call hi _ =>
        obtain ⟨-, -, outputs, -, -, hout, -, hone⟩ := hi.accepts hr
        rw [hout, hone rfl]

theorem read_resolved_accepts_unclosed :
    let d := read Table.builtin "a: nope(1), _: min(a exp(2 3)".toList
    d.problems.length = 2 ∧ ∃ source ∈ d.sources, ∃ s ∈ source.statements, ∃ root ∈ s.nodes,
      ∃ head params tags, (Node.call head params tags).Occurs root ∧ head.name = "exp" ∧
        ∃ operand number op outputs, head.operand = some operand ∧
          Table.builtin.lookup "exp" = some (number, op) ∧ head.outputs = some outputs ∧
          op.Accepts (head.arguments.map (·.value)) params.length operand outputs := by
  intro d
  have hd : d.problems.length = 2 ∧ ∃ source ∈ d.sources, ∃ s ∈ source.statements,
      ∃ root ∈ s.nodes, ∃ n ∈ root.parameters, (match n with
        | .call head _ _ => head.name == "exp" && head.operand.isSome
        | .value .. | .reference .. => false) = true := by decide +kernel
  obtain ⟨hp, source, hsource, s, hs, root, hroot, n, hn, hinner⟩ := hd
  refine ⟨hp, source, hsource, s, hs, root, hroot, ?_⟩
  have ho : n.Occurs root := Node.occurs_of_mem_parameters hn
  split at hinner
  · rename_i inner params tags
    simp only [Bool.and_eq_true, beq_iff_eq, Option.isSome_iff_exists] at hinner
    obtain ⟨hname, operand, hr⟩ := hinner
    obtain ⟨-, h, -⟩ := read_resolved_accepts Table.builtin _ source hsource s hs _ hroot inner
      params tags ho
    obtain ⟨number, op, outputs, hl, -, hout, hacc⟩ := h operand hr
    rw [hname] at hl
    exact ⟨inner, params, tags, ho, hname, operand, number, op, outputs, hr, hl, hout, hacc⟩
  all_goals cases hinner

end Document

end Wordcode
