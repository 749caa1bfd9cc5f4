import Wordcode.Proofs.Clauses

namespace Wordcode

def Action.constants (as : List Action) : List Nat :=
  as.filterMap fun
    | .constant n => some n
    | _ => none

@[simp]
theorem Action.constants_append (as bs : List Action) :
    constants (as ++ bs) = constants as ++ constants bs := by
  simp [constants]

theorem Scope.slot?_slotLabels {read : Nat → Bool} {k : Nat} {before : List Label}
    (hb : before.map (·.name) = slotLabels read 0 k) {j : Nat} (hj : j < k)
    (hr : read j = true) : (Scope.after before).slot? (Decompile.slotName j) = some j := by
  have hlen : before.length = k := by
    have hl := congrArg List.length hb
    simpa using hl
  have hname : ∀ i (hi : i < before.length), before[i].name = slotLabel read i := by
    intro i hi
    have hg := congrArg (·[i]?) hb
    simp only [slotLabels, List.getElem?_map, List.getElem?_eq_getElem hi, Option.map_some] at hg
    rw [List.getElem?_range' (by omega)] at hg
    simpa using hg
  rw [slot?_after, List.findIdx?_eq_some_iff_getElem]
  refine ⟨by omega, ?_, ?_⟩
  · have hn : before[j].name = Decompile.slotName j := by
      rw [hname j (by omega), slotLabel, if_pos hr]
    simp [Label.binds, Label.isBindable, hn, slotName_ne_underscore, isName_slotName]
  · intro i hi
    have hn : before[i].name ≠ Decompile.slotName j := by
      rw [hname i (by omega), slotLabel]
      split
      · intro he
        have := slotName_injective he
        omega
      · exact fun he => slotName_ne_underscore j he.symm
    simp [Label.binds, hn]

/-- A pool that has only values of the list. -/
structure Pool.Within (pool : Pool) (allowed : List Nat) : Prop where
  valid : pool.Valid
  subset : ∀ v ∈ pool.values.toList, v ∈ allowed

/-- What code is added for the actions: it makes room for their constants and does them. -/
structure Code.Adds (memory : UInt16) (allowed : List Nat) (code code' : Code) (as : List Action) :
    Prop where
  within : code'.pool.Within allowed
  values : code'.pool.values.toList =
    (Action.constants as).foldl Pool.extend code.pool.values.toList
  words : ∃ ws : List Instruction, code'.words = ws.reverse ++ code.words ∧
    Performs memory (code'.pool.values.toList[·]?) ws as

namespace Code

variable {table : Table} {memory : UInt16} {allowed : List Nat} {code code₁ code₂ : Code}
  {as bs : List Action}

theorem adds_nil (h : code.pool.Within allowed) : code.Adds memory allowed code [] :=
  ⟨h, rfl, [], rfl, .nil⟩

theorem Adds.append (h : code.Adds memory allowed code₁ as)
    (h' : code₁.Adds memory allowed code₂ bs) : code.Adds memory allowed code₂ (as ++ bs) := by
  obtain ⟨ws, hw, ha⟩ := h.words
  obtain ⟨ws', hw', ha'⟩ := h'.words
  have hp : code₁.pool.values.toList <+: code₂.pool.values.toList := by
    rw [h'.values]
    exact Pool.prefix_foldl _ _
  refine ⟨h'.within, ?_, ws ++ ws', ?_, ?_⟩
  · rw [h'.values, h.values, Action.constants_append, List.foldl_append]
  · rw [hw', hw]
    simp
  · exact (ha.mono fun _ _ => Pool.getElem?_of_prefix hp).append ha'

theorem adds_constant (memory : UInt16) (h : code.pool.Within allowed)
    (hl : allowed.length ≤ Instruction.maxIndex + 1) {v : Nat} (hv : v ∈ allowed) :
    ∃ code', code.constant memory v = .ok code' ∧
      code.Adds memory allowed code' [.constant v] := by
  obtain ⟨pool, i, ha, hi⟩ := h.valid.add_of_subset h.subset hl hv
  obtain ⟨hvalid, hvalues, hplace⟩ := h.valid.add ha
  obtain ⟨w, hw⟩ := Instruction.memory?_of_le memory .constant hi
  obtain ⟨hop, hregion⟩ := Instruction.memory?_eq_some hw
  refine ⟨⟨pool, w :: code.words⟩, ?_, ⟨hvalid, ?_⟩, ?_, [w], rfl,
    .cons (Instruction.action?_constant hop hregion hplace) .nil⟩
  · simp [constant, ha, hw, emit]
  · intro u hu
    rw [hvalues, Pool.mem_extend] at hu
    rcases hu with hu | rfl
    · exact h.subset u hu
    · exact hv
  · rw [hvalues]
    rfl

theorem adds_reference (memory : UInt16) (h : code.pool.Within allowed) {scope : Scope}
    {name : String} {k : Nat} (hs : scope.slot? name = some k) (hk : k ≤ Instruction.maxIndex)
    (p : Position) :
    ∃ code', code.reference memory scope name p = .ok code' ∧
      code.Adds memory allowed code' [.slot k] := by
  obtain ⟨w, hw⟩ := Instruction.memory?_of_le memory .stack hk
  obtain ⟨hop, hregion⟩ := Instruction.memory?_eq_some hw
  refine ⟨⟨code.pool, w :: code.words⟩, ?_, h, rfl, [w], rfl,
    .cons (Instruction.action?_stack hop hregion) .nil⟩
  simp [reference, hs, hw, emit]

theorem adds_call (h : code.pool.Within allowed) (scope : Scope) {head : Call}
    {number operand : UInt16} (ho : head.opcode = some number) (hr : head.operand = some operand)
    (hn : number ≠ memory) :
    ∃ code', code.call memory scope head = .ok code' ∧
      code.Adds memory allowed code' [.run number operand] := by
  have hrun : (⟨number, operand⟩ : Instruction).opcode ≠ memory := hn
  refine ⟨⟨code.pool, ⟨number, operand⟩ :: code.words⟩, ?_, h, rfl, [⟨number, operand⟩], rfl,
    .cons (Instruction.action?_run hrun) .nil⟩
  simp [call, ho, hr, hn, emit]

theorem nodes_stand (hv : table.Valid) {readable : Nat → Prop} {scope : Scope}
    (hs : ∀ k, readable k → scope.slot? (Decompile.slotName k) = some k ∧
      k ≤ Instruction.maxIndex)
    (hl : allowed.length ≤ Instruction.maxIndex + 1) {nested : Bool} {ts : List Term} {n : Nat}
    (h : Term.Stands table memory readable nested ts n as)
    (hc : ∀ v, .constant v ∈ as → v ∈ allowed) {ns : List Node}
    (ht : Node.Typed table scope nested ns) (he : Node.terms ns = ts)
    (hp : code.pool.Within allowed) :
    ∃ code', code.nodes memory scope ns = .ok code' ∧ code.Adds memory allowed code' as := by
  induction h generalizing ns code with
  | nil =>
    have hnil : ns = [] := by simpa [Node.terms_eq_map] using he
    subst hnil
    exact ⟨code, by simp [nodes], adds_nil hp⟩
  | @literal _ v _ _ _ hle _ ih =>
    obtain ⟨n, rest, rfl, hn, htail⟩ := Node.terms_eq_cons he
    obtain ⟨value, p, tags, rfl⟩ := Node.term_eq_literal hn
    cases ht with
    | value hr hrest =>
      rw [read_numeral hle, Except.ok.injEq] at hr
      subst hr
      obtain ⟨code₁, h₁, ha₁⟩ := adds_constant memory hp hl (hc v (by simp))
      obtain ⟨code₂, h₂, ha₂⟩ := ih (fun u hu => hc u (by simp [hu])) hrest htail ha₁.within
      exact ⟨code₂, by rw [nodes, node, h₁]; exact h₂, ha₁.append ha₂⟩
  | @reference _ k _ _ _ hk _ ih =>
    obtain ⟨n, rest, rfl, hn, htail⟩ := Node.terms_eq_cons he
    obtain ⟨p, tags, rfl⟩ := Node.term_eq_reference hn
    cases ht with
    | reference _ hrest =>
      obtain ⟨hslot, hmax⟩ := hs k hk
      obtain ⟨code₁, h₁, ha₁⟩ := adds_reference memory hp hslot hmax p
      obtain ⟨code₂, h₂, ha₂⟩ := ih (fun u hu => hc u (by simp [hu])) hrest htail ha₁.within
      exact ⟨code₂, by rw [nodes, node, h₁]; exact h₂, ha₁.append ha₂⟩
  | @call _ arguments params rest number operand op outputs _ _ ps as hg hne hacc _ _ _ ihp ih =>
    obtain ⟨n, rest, rfl, hn, htail⟩ := Node.terms_eq_cons he
    obtain ⟨head, params', tags, rfl, hname, hargs, hterms⟩ := Node.term_eq_call hn
    cases ht with
    | @call _ _ _ _ _ number' op' r hlook ho hr hacc' _ hparams hrest =>
      rw [hname, hv.found _ _ hg, Option.some.injEq, Prod.mk.injEq] at hlook
      obtain ⟨rfl, rfl⟩ := hlook
      have hoperand : r.operand = operand := by
        have hpack := hacc'.packs
        rw [hargs, ← Node.length_terms, hterms, hacc.packs, Except.ok.injEq] at hpack
        exact hpack.symm
      obtain ⟨code₁, h₁, ha₁⟩ := ihp (fun v hm => hc v (by simp [hm])) hparams hterms hp
      obtain ⟨code₂, h₂, ha₂⟩ := adds_call ha₁.within scope ho hr.operand hne
      obtain ⟨code₃, h₃, ha₃⟩ := ih (fun v hm => hc v (by simp [hm])) hrest htail ha₂.within
      rw [hoperand] at ha₂
      refine ⟨code₃, ?_, ha₁.append (ha₂.append ha₃)⟩
      rw [nodes, node, h₁]
      dsimp only
      rw [h₂]
      exact h₃

theorem statements_stand (hv : table.Valid) {read : Nat → Bool}
    (hr : ∀ k, read k = true → k ≤ Instruction.maxIndex)
    (hl : allowed.length ≤ Instruction.maxIndex + 1) {k l : Nat} {cs : List Clause}
    (h : Clause.StandAll table memory read k cs l as)
    (hc : ∀ v, .constant v ∈ as → v ∈ allowed) {before : List Label}
    (hb : before.map (·.name) = slotLabels read 0 k) {ss : List Statement}
    (hs : Statement.AllSound table before ss) (he : ss.map Statement.clause = cs)
    (hp : code.pool.Within allowed) :
    ∃ code', code.statements memory (Scope.after before) ss = .ok code' ∧
      code.Adds memory allowed code' as := by
  induction h generalizing before ss code with
  | nil =>
    rw [List.map_eq_nil_iff] at he
    subst he
    exact ⟨code, rfl, adds_nil hp⟩
  | @cons k l c rest as bs hn ht _ ih =>
    obtain ⟨s, ss, rfl, hclause, he⟩ := List.map_eq_cons_iff.mp he
    have hnames : s.labels.map (·.name) = c.names := congrArg Clause.names hclause
    have hterms : Node.terms s.nodes = c.terms := congrArg Clause.terms hclause
    have hscope : ∀ j, j < k ∧ read j = true →
        (Scope.after before).slot? (Decompile.slotName j) = some j ∧ j ≤ Instruction.maxIndex :=
      fun j hj => ⟨Scope.slot?_slotLabels hb hj.1 hj.2, hr j hj.2⟩
    obtain ⟨code₁, h₁, ha₁⟩ := nodes_stand hv hscope hl ht (fun v hm => hc v (by simp [hm]))
      hs.1.typed hterms hp
    have hnext : (before ++ s.labels).map (·.name) =
        slotLabels read 0 (k + c.names.length) := by
      rw [List.map_append, hb, hnames, ← slotLabels_append, Nat.zero_add, ← hn]
    obtain ⟨code₂, h₂, ha₂⟩ := ih (fun v hm => hc v (by simp [hm])) hnext hs.2 he ha₁.within
    refine ⟨code₂, ?_, ha₁.append ha₂⟩
    rw [statements, h₁, Scope.declareAll_after]
    exact h₂

end Code

/-- The values of the constants that a memory read can reach. -/
def Bytecode.reachable (code : Bytecode) : List Nat :=
  (List.range (Instruction.maxIndex + 1)).filterMap code.constant?

theorem Bytecode.length_reachable (code : Bytecode) :
    code.reachable.length ≤ Instruction.maxIndex + 1 := by
  have h := List.length_filterMap_le code.constant? (List.range (Instruction.maxIndex + 1))
  rwa [List.length_range] at h

theorem Bytecode.le_of_mem_reachable {code : Bytecode} {v : Nat} (h : v ∈ code.reachable) :
    v ≤ Literal.maxValue := by
  obtain ⟨i, _, hi⟩ := List.mem_filterMap.mp h
  exact constant?_le hi

theorem Performs.mem_reachable {memory : UInt16} {code : Bytecode} {is : List Instruction}
    {as : List Action} (h : Performs memory code.constant? is as) {v : Nat}
    (hv : .constant v ∈ as) : v ∈ code.reachable := by
  induction h with
  | nil => simp at hv
  | @cons i a is as ha _ ih =>
    rcases List.mem_cons.mp hv with rfl | hm
    · obtain ⟨-, index, hr, hc⟩ := Instruction.action?_eq_constant ha
      have hle := Region.ofOperand_le i.operand
      rw [hr] at hle
      refine List.mem_filterMap.mpr ⟨index, ?_, hc⟩
      rw [List.mem_range]
      exact Nat.lt_succ_of_le hle
    · exact ih hm

namespace Code

theorem sources_stand {table : Table} {memory : UInt16} (hv : table.Valid) {code : Bytecode}
    {sources : List (List UInt8)} {script : Script}
    (h : List.Forall₂ (fun bytes clauses => ∃ as, code.Renders table memory bytes clauses as)
      sources script) {ss : List Source}
    (hs : ∀ s ∈ ss, Statement.AllSound table [] s.statements)
    (he : ss.map (·.statements.map Statement.clause) = script) {pool : Pool}
    (hp : pool.Within code.reachable) (done : List (List Instruction)) :
    ∃ wss pool' ass, Code.sources memory pool done ss = .ok (done.reverse ++ wss, pool') ∧
      pool'.Within code.reachable ∧
      pool'.values.toList =
        (Action.constants ass.flatten).foldl Pool.extend pool.values.toList ∧
      List.Forall₂ (fun bytes as => bytes.length % Instruction.size = 0 ∧
        Performs memory code.constant? (Instruction.decode bytes) as) sources ass ∧
      List.Forall₂ (Performs memory (pool'.values.toList[·]?)) wss ass := by
  induction h generalizing ss pool done with
  | nil =>
    rw [List.map_eq_nil_iff] at he
    subst he
    exact ⟨[], pool, [], by simp [Code.sources], hp, rfl, .nil, .nil⟩
  | @cons bytes clauses sources script hrenders _ ih =>
    obtain ⟨s, ss, rfl, hclauses, he⟩ := List.map_eq_cons_iff.mp he
    obtain ⟨as, hrenders⟩ := hrenders
    obtain ⟨read, l, hstand, hread⟩ := hrenders.stand
    rw [List.forall_mem_cons] at hs
    have hstart : (⟨pool, []⟩ : Code).pool.Within code.reachable := hp
    obtain ⟨code₁, h₁, ha₁⟩ := statements_stand hv hread code.length_reachable hstand
      (fun v hm => hrenders.actions.mem_reachable hm) rfl hs.1 hclauses hstart
    obtain ⟨ws, hw, hperf⟩ := ha₁.words
    obtain ⟨wss, pool', ass, hrest, hwithin, hvalues, hsources, hperfs⟩ :=
      ih hs.2 he ha₁.within (ws :: done)
    have hgrow : code₁.pool.values.toList <+: pool'.values.toList := by
      rw [hvalues]
      exact Pool.prefix_foldl _ _
    refine ⟨ws :: wss, pool', as :: ass, ?_, hwithin, ?_, .cons ⟨hrenders.aligned, hrenders.actions⟩
      hsources, .cons (hperf.mono fun _ _ => Pool.getElem?_of_prefix hgrow) hperfs⟩
    · have hsource : source memory pool s = .ok (ws, code₁.pool) := by
        have hempty : Scope.after [] = {} := rfl
        rw [hempty] at h₁
        rw [source, h₁]
        simp [hw]
      rw [Code.sources, hsource]
      simpa using hrest
    · rw [hvalues, ha₁.values, List.flatten_cons, Action.constants_append, List.foldl_append]

end Code

/-- Decompiled text is compiled to code that does the same, with the constants it reads. -/
theorem Bytecode.recompile {table : Table} (hv : table.Valid) {memory : String} {number : UInt16}
    {op : Opcode} (hm : table.lookup memory = some (number, op)) {code : Bytecode}
    {script : Script} (h : code.script table memory = .ok script) :
    (Document.read table script.text.toList).problems = [] ∧
      ∃ (wss : List (List Instruction)) (pool : Pool) (ass : List (List Action)),
        (Document.read table script.text.toList).compile table memory =
          .ok ⟨wss.map Instruction.encode, pool.texts⟩ ∧
        pool.Good ∧ pool.values.toList = (Action.constants ass.flatten).eraseDups ∧
        List.Forall₂ (fun bytes as => bytes.length % Instruction.size = 0 ∧
          Performs number code.constant? (Instruction.decode bytes) as) code.sources ass ∧
        List.Forall₂ (Performs number (pool.values.toList[·]?)) wss ass := by
  have hrenders := code.script_renders hm h
  have hreadable : ∀ clauses ∈ script, Clause.AllReadable table [] clauses := by
    intro clauses hc
    obtain ⟨bytes, -, as, hs⟩ := forall₂_mem_right hrenders hc
    obtain ⟨read, l, hstand, -⟩ := hs.stand
    exact hstand.allReadable hv
  obtain ⟨hp, hscript⟩ := Document.read_script hreadable
  refine ⟨hp, ?_⟩
  have hsound := Document.read_sound hp
  have hempty : ({} : Pool).Within code.reachable := ⟨Pool.valid_empty, by simp⟩
  obtain ⟨wss, pool, ass, hsources, hwithin, hvalues, hactions, hperfs⟩ :=
    Code.sources_stand hv hrenders hsound hscript hempty []
  refine ⟨wss, pool, ass, ?_, ⟨hwithin.valid, ?_⟩, ?_, hactions, hperfs⟩
  · have hvalid : (Document.read table script.text.toList).isValid = true := by
      simp [Document.isValid, hp]
    simp only [List.reverse_nil, List.nil_append] at hsources
    simp [Document.compile, hvalid, Document.unresolved?_eq_none hsound, hm, hsources]
  · exact fun v hm => Bytecode.le_of_mem_reachable (hwithin.subset v hm)
  · rw [hvalues, Pool.foldl_extend]
    simp

end Wordcode
