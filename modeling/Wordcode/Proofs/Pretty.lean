import Wordcode.Layout
import Wordcode.Proofs.Emission
import Wordcode.Proofs.Rereading

namespace Wordcode

theorem toOption_bind {ε α β : Type} (x : Except ε α) (f : α → Except ε β) :
    (x.bind f).toOption = x.toOption.bind fun a => (f a).toOption := by
  cases x <;> rfl

namespace Code

variable (memory : UInt16) (scope : Scope)

theorem reference_bare (code : Code) (name : String) (p p' : Position) :
    (code.reference memory scope name p).toOption =
      (code.reference memory scope name p').toOption := by
  unfold reference
  cases scope.slot? name <;> rfl

theorem call_bare (code : Code) (head : Call) :
    (code.call memory scope head.bare).toOption = (code.call memory scope head).toOption := by
  have hopcode : head.bare.opcode = head.opcode := rfl
  have hoperand : head.bare.operand = head.operand := rfl
  unfold call
  rw [hopcode, hoperand]
  cases head.opcode with
  | none => rfl
  | some number =>
    cases head.operand with
    | none => rfl
    | some operand =>
      dsimp only
      split <;> rfl

mutual

theorem node_bare (code : Code) : (n : Node) →
    (code.node memory scope n.bare).toOption = (code.node memory scope n).toOption
  | .value raw none p tags => rfl
  | .value raw (some v) p tags => rfl
  | .reference name p tags => reference_bare memory scope code name _ p
  | .call head params tags => by
    rw [Node.bare, node_call, node_call, toOption_bind, toOption_bind, nodes_bare code params]
    congr 1
    funext code
    exact call_bare memory scope code head

theorem nodes_bare (code : Code) : (ns : List Node) →
    (code.nodes memory scope (Node.allBare ns)).toOption = (code.nodes memory scope ns).toOption
  | [] => rfl
  | n :: rest => by
    rw [Node.allBare, nodes_cons, nodes_cons, toOption_bind, toOption_bind, node_bare code n]
    congr 1
    funext code
    exact nodes_bare code rest

end

theorem statements_bare (code : Code) (ss : List Statement) :
    (code.statements memory scope (ss.map Statement.bare)).toOption =
      (code.statements memory scope ss).toOption := by
  induction ss generalizing scope code with
  | nil => rfl
  | cons s ss ih =>
    have hnodes : s.bare.nodes = Node.allBare s.nodes := by simp [Statement.bare]
    have hscope : scope.declareAll s.bare.labels = scope.declareAll s.labels :=
      scope.declareAll_bare s.labels
    rw [List.map_cons, statements_cons, statements_cons, toOption_bind, toOption_bind, hnodes,
      nodes_bare, hscope]
    congr 1
    funext code
    exact ih _ code

theorem sources_bare (pool : Pool) (done : List (List Instruction)) (ss : List Source) :
    (sources memory pool done (ss.map Source.bare)).toOption =
      (sources memory pool done ss).toOption := by
  induction ss generalizing pool done with
  | nil => rfl
  | cons s ss ih =>
    have hstatements : s.bare.statements = s.statements.map Statement.bare := rfl
    rw [List.map_cons, sources_cons, sources_cons, toOption_bind, toOption_bind, hstatements,
      statements_bare]
    congr 1
    funext code
    exact ih _ _

end Code

theorem Document.compile_reflow {table : Table} {memory : String} {text text' : List Char}
    {code : Bytecode} (h : Reflow true text text')
    (hc : (Document.read table text).compile table memory = .ok code) :
    (Document.read table text').compile table memory = .ok code := by
  obtain ⟨number, op, -, -, hm, hp, -, -⟩ := compile_emits hc
  obtain ⟨hp', hsources⟩ := read_reflow h hp
  have hoption : (Code.sources number {} [] (Document.read table text).sources).toOption =
      (Code.sources number {} [] (Document.read table text').sources).toOption := by
    rw [← Code.sources_bare, hsources, Code.sources_bare]
  rw [compile_eq hm hp] at hc
  rw [compile_eq hm hp']
  cases hs : Code.sources number {} [] (Document.read table text).sources with
  | error err =>
    rw [hs] at hc
    cases hc
  | ok result =>
    rw [hs] at hc hoption
    cases hs' : Code.sources number {} [] (Document.read table text').sources with
    | error err =>
      rw [hs'] at hoption
      cases hoption
    | ok result' =>
      rw [hs'] at hoption
      cases hoption
      exact hc

namespace Layout

/-- The result goes on behind `done` with the same text in other lines and columns. -/
def LaidOut (done cs result : List Char) : Prop :=
  ∃ out, result = done.reverse ++ out ∧ ∀ free, Reflow free cs out

variable {done rest result : List Char}

theorem LaidOut.copy (c : Char) (h : LaidOut (c :: done) rest result) :
    LaidOut done (c :: rest) result := by
  obtain ⟨out, rfl, hout⟩ := h
  refine ⟨c :: out, by simp, fun free => ?_⟩
  by_cases hc : isBlank c = true
  · have hb : Blanks [c] := by simpa [Blanks] using hc
    exact (hout true).pad hb hb (by simp) (by simp) free
  · exact .cons (by simpa using hc) (hout _)

theorem blanks_newline (width : Nat) : Blanks ('\n' :: List.replicate width ' ') := by
  intro b hb
  rcases List.mem_cons.mp hb with rfl | hb
  · rfl
  · exact blanks_replicate width b hb

theorem LaidOut.opening {width : Nat} (h : LaidOut (newline width ('(' :: done)) rest result) :
    LaidOut done ('(' :: rest) result := by
  obtain ⟨out, rfl, hout⟩ := h
  refine ⟨'(' :: (('\n' :: List.replicate width ' ') ++ out), by simp [newline], fun free => ?_⟩
  exact .cons rfl ((hout true).pad_right (blanks_newline width))

theorem LaidOut.closing {width : Nat} (h : LaidOut (')' :: newline width done) rest result) :
    LaidOut done (')' :: rest) result := by
  obtain ⟨out, rfl, hout⟩ := h
  refine ⟨('\n' :: List.replicate width ' ') ++ ')' :: out, by simp [newline], fun free => ?_⟩
  have hr : Reflow free ([] ++ ')' :: rest) (('\n' :: List.replicate width ' ') ++ ')' :: out) :=
    .solid blanks_nil (blanks_newline width) rfl (.inr (.inl rfl)) (hout _)
  exact hr

theorem LaidOut.breaking {width : Nat} (h : LaidOut (newline width done) rest result) :
    LaidOut done (' ' :: rest) result := by
  obtain ⟨out, rfl, hout⟩ := h
  refine ⟨('\n' :: List.replicate width ' ') ++ out, by simp [newline], fun free => ?_⟩
  exact (hout true).pad (blanks_replicate 1) (blanks_newline width) (by simp) (by simp) free

theorem laidOut_indentFrom (indent : Nat) (m : Mode) (done cs : List Char) :
    LaidOut done cs (indentFrom indent m done cs) := by
  fun_induction indentFrom indent m done cs with
  | case1 m done => exact ⟨[], by simp, fun _ => .blanks blanks_nil blanks_nil⟩
  | case2 done c rest ih => exact ih.copy c
  | case3 depth arguments done rest ih => exact (ih.copy ')').copy '('
  | case4 depth arguments done c rest _ _ ih => exact ih.copy c
  | case5 depth arguments done c rest _ _ _ ih => exact ih.copy c
  | case6 depth arguments done c rest _ _ _ _ ih => exact ih.copy c
  | case7 depth arguments done c rest _ _ _ _ hc ih =>
    rw [beq_iff_eq] at hc
    subst hc
    exact ih.opening
  | case8 depth arguments done c rest _ _ _ _ _ hc ih =>
    rw [beq_iff_eq] at hc
    subst hc
    exact ih.closing
  | case9 depth arguments done c rest _ _ _ _ _ _ hc ih =>
    rw [Bool.and_eq_true, Bool.and_eq_true, beq_iff_eq] at hc
    obtain ⟨⟨rfl, -⟩, -⟩ := hc
    exact ih.breaking
  | case10 depth arguments done c rest _ _ _ _ _ _ _ ih => exact ih.copy c

theorem reflow_pretty (indent : Nat) (text : List Char) :
    Reflow true text (pretty indent text) := by
  obtain ⟨out, hout, hr⟩ := laidOut_indentFrom indent .head [] text
  rw [pretty, hout]
  exact hr true

end Layout

/-- Laying a text out changes neither its code nor whether there is any. -/
theorem Document.compile_pretty_eq_ok_iff (table : Table) (memory : String) (indent : Nat)
    (text : List Char) (code : Bytecode) :
    (Document.read table (Layout.pretty indent text)).compile table memory = .ok code ↔
      (Document.read table text).compile table memory = .ok code :=
  ⟨compile_reflow (Layout.reflow_pretty indent text).symm,
    compile_reflow (Layout.reflow_pretty indent text)⟩

end Wordcode
