import Wordcode.Proofs.Capacity
import Wordcode.Proofs.Codec
import Wordcode.Proofs.SourceMap

namespace Wordcode

namespace Node

variable {n : Node}

theorem allInOrder_append (ns ns' : List Node) :
    allInOrder (ns ++ ns') = allInOrder ns ++ allInOrder ns' := by
  induction ns with
  | nil => rfl
  | cons n ns ih => rw [List.cons_append, allInOrder, allInOrder, ih, List.append_assoc]

mutual

theorem mem_inOrder : (root : Node) → (n ∈ root.inOrder ↔ n.Occurs root)
  | .value raw v p tags => by
    rw [inOrder, List.mem_singleton]
    constructor
    · rintro rfl
      exact .self
    · rintro ⟨⟩
      rfl
  | .reference name p tags => by
    rw [inOrder, List.mem_singleton]
    constructor
    · rintro rfl
      exact .self
    · rintro ⟨⟩
      rfl
  | .call head params tags => by
    rw [inOrder, List.mem_append, List.mem_singleton, mem_allInOrder params]
    constructor
    · rintro (⟨root, hm, ho⟩ | rfl)
      · exact .parameter hm ho
      · exact .self
    · intro ho
      cases ho with
      | self => exact .inr rfl
      | parameter hm ho => exact .inl ⟨_, hm, ho⟩

theorem mem_allInOrder : (ns : List Node) → (n ∈ allInOrder ns ↔ ∃ root ∈ ns, n.Occurs root)
  | [] => by simp [allInOrder]
  | m :: rest => by
    rw [allInOrder, List.mem_append, mem_inOrder m, mem_allInOrder rest]
    simp

end

def isNumeral : Node → Bool
  | .value .. => true
  | _ => false

def numerals (ns : List Node) : List Node :=
  (allInOrder ns).filter isNumeral

theorem filterMap_numerals (ns : List Node) :
    (numerals ns).filterMap literal? = (allInOrder ns).filterMap literal? := by
  rw [numerals, List.filterMap_filter]
  congr 1
  funext n
  cases n <;> rfl

theorem numerals_cons (n : Node) (ns : List Node) :
    numerals (n :: ns) = n.inOrder.filter isNumeral ++ numerals ns := by
  rw [numerals, allInOrder, List.filter_append, numerals]

theorem Laid.numerals {text : List Char} {lo hi : Nat} {ns : List Node} (h : Laid text lo hi ns) :
    (∀ m ∈ numerals ns, m.position.Within lo hi) ∧
      (numerals ns).Pairwise fun m m' => m.position.last < m'.position.first := by
  induction h with
  | nil => exact ⟨by simp [Node.numerals, allInOrder], .nil⟩
  | @cons lo hi n rest hlo hn htags hparams hrest ihparams ihrest =>
    have hbounds := hn.bounds
    have hle := hrest.le
    have hfirst : (∀ m ∈ n.inOrder.filter isNumeral, m.position.Within lo (n.position.last + 1)) ∧
        (n.inOrder.filter isNumeral).Pairwise fun m m' => m.position.last < m'.position.first := by
      cases n with
      | value raw v p tags =>
        have hin : (value raw v p tags).inOrder.filter isNumeral = [value raw v p tags] := rfl
        rw [hin, List.forall_mem_singleton]
        exact ⟨⟨hlo, by omega, Nat.lt_succ_self _⟩, List.pairwise_singleton _ _⟩
      | reference name p tags => simp [inOrder, isNumeral]
      | call head params tags =>
        have hin : (call head params tags).inOrder.filter isNumeral = Node.numerals params := by
          simp [inOrder, Node.numerals, isNumeral]
        rw [hin]
        exact ⟨fun m hm => (ihparams.1 m hm).mono (by omega) (Nat.le_refl _), ihparams.2⟩
    rw [numerals_cons, List.forall_mem_append, List.pairwise_append]
    refine ⟨⟨fun m hm => (hfirst.1 m hm).mono (Nat.le_refl _) hle,
      fun m hm => (ihrest.1 m hm).mono (by omega) (Nat.le_refl _)⟩, hfirst.2, ihrest.2, ?_⟩
    intro m hm m' hm'
    have hlt := (hfirst.1 m hm).lt
    have hge := (ihrest.1 m' hm').ge
    omega

/-- The word of a node: a numeral reads the constant with its value, a reference reads a slot, and
a call has its opcode and its operand. -/
def HasWord (memory : UInt16) (constants : List Nat) : Node → Instruction → Prop
  | .value raw v _ _, w => ∃ n i, Literal.read raw = .ok n ∧ v = some n ∧ constants[i]? = some n ∧
      w.opcode = memory ∧ w.operand.toNat = 2 * i + 1
  | .reference .., w => w.opcode = memory ∧ w.operand.toNat % 2 = 0
  | .call head _ _, w => head.opcode = some w.opcode ∧ head.operand = some w.operand

end Node

theorem Region.toNat_of_ofOperand {operand : UInt16} {region : Region} {index : Nat}
    (h : ofOperand operand = (region, index)) :
    operand.toNat = 2 * index + if region = .constant then 1 else 0 := by
  unfold ofOperand at h
  rw [Prod.mk.injEq] at h
  obtain ⟨rfl, rfl⟩ := h
  split
  · simp only [if_true]
    omega
  · simp only [reduceCtorEq, if_false]
    omega

/-- Nodes in the order of their words, with what becomes of the pool: it gets the values of the
numerals, and the words read them where they are in the end. -/
structure Fills (memory : UInt16) (pool pool' : Pool) (ns : List Node) (ws : List Instruction) :
    Prop where
  values : pool'.values.toList = (ns.filterMap Node.literal?).foldl Pool.extend pool.values.toList
  room : pool.size ≤ Instruction.maxIndex + 1 → pool'.size ≤ Instruction.maxIndex + 1
  words : ∀ constants, pool'.values.toList <+: constants →
    List.Forall₂ (Node.HasWord memory constants) ns ws

namespace Fills

variable {memory : UInt16} {pool pool₁ pool₂ : Pool} {ns ns' : List Node}
  {ws ws' : List Instruction}

theorem nil (memory : UInt16) (pool : Pool) : Fills memory pool pool [] [] :=
  ⟨rfl, id, fun _ _ => .nil⟩

theorem append (h : Fills memory pool pool₁ ns ws) (h' : Fills memory pool₁ pool₂ ns' ws') :
    Fills memory pool pool₂ (ns ++ ns') (ws ++ ws') := by
  refine ⟨?_, fun hroom => h'.room (h.room hroom), fun constants hc => ?_⟩
  · rw [List.filterMap_append, List.foldl_append, ← h.values, h'.values]
  · have hgrow : pool₁.values.toList <+: pool₂.values.toList := by
      rw [h'.values]
      exact Pool.prefix_foldl _ _
    exact List.rel_append (h.words constants (hgrow.trans hc)) (h'.words constants hc)

end Fills

theorem Emits.fills {table : Table} {memory : UInt16} {scope : Scope} {nested : Bool}
    {pool pool' : Pool} {ns : List Node} {ws : List Instruction}
    (h : Emits table memory scope nested pool ns ws pool') (hg : pool.Good) :
    Fills memory pool pool' (Node.allInOrder ns) ws := by
  induction h with
  | nil => exact .nil memory _
  | @value nested pool pool₁ pool₂ raw n i p tags rest w ws hr ha hw he ih =>
    obtain ⟨hg₁, -⟩ := hg.add (Literal.read_le hr) ha
    obtain ⟨hop, hregion⟩ := Instruction.memory?_eq_some hw
    obtain ⟨-, hextend, hi⟩ := hg.valid.add ha
    have hone : Fills memory pool pool₁ [.value raw (some n) p tags] [w] := by
      refine ⟨hextend, fun hroom => Pool.size_le_of_add hroom ha, fun constants hc => ?_⟩
      exact .cons ⟨n, i, hr, rfl, Pool.getElem?_of_prefix hc hi, hop,
        Region.toNat_of_ofOperand hregion⟩ .nil
    exact hone.append (ih hg₁)
  | @reference nested pool pool₁ name slot p tags rest w ws hslot hw he ih =>
    obtain ⟨hop, hregion⟩ := Instruction.memory?_eq_some hw
    have hone : Fills memory pool pool [.reference name p tags] [w] := by
      refine ⟨rfl, id, fun constants _ => .cons ⟨hop, ?_⟩ .nil⟩
      rw [Region.toNat_of_ofOperand hregion]
      simp
    exact hone.append (ih hg)
  | @call nested pool pool₁ pool₂ head params tags rest number op r ws₁ ws₂ hget ho hr hacc hone
      hcan hparams hrest ihp ih =>
    have hcall : Fills memory pool₁ pool₁ [.call head params tags] [⟨number, r.operand⟩] :=
      ⟨rfl, id, fun constants _ => .cons ⟨ho, hr.operand⟩ .nil⟩
    have hall := ((ihp hg).append hcall).append (ih (hparams.pool_good hg).1)
    rwa [List.append_assoc ws₁] at hall

theorem EmitsAll.fills {table : Table} {memory : UInt16} {before : List Label}
    {pool pool' : Pool} {ss : List Statement} {ws : List Instruction}
    (h : EmitsAll table memory before pool ss ws pool') (hg : pool.Good) :
    Fills memory pool pool' (Node.allInOrder (ss.flatMap (·.nodes))) ws := by
  induction h with
  | nil => exact .nil memory _
  | cons _ he _ ih =>
    rw [List.flatMap_cons, Node.allInOrder_append]
    exact (he.fills hg).append (ih (he.pool_good hg).1)

def Source.inOrder (s : Source) : List Node :=
  Node.allInOrder (s.statements.flatMap (·.nodes))

theorem EmitsSources.fills {table : Table} {memory : UInt16} {pool pool' : Pool}
    {ss : List Source} {wss : List (List Instruction)}
    (h : EmitsSources table memory pool ss wss pool') (hg : pool.Good) :
    Fills memory pool pool' (ss.flatMap Source.inOrder) wss.flatten ∧
      ∀ constants, pool'.values.toList <+: constants → List.Forall₂ (fun (s : Source) ws =>
        List.Forall₂ (Node.HasWord memory constants) s.inOrder ws) ss wss := by
  induction h with
  | nil => exact ⟨.nil memory _, fun _ _ => .nil⟩
  | cons he hrest ih =>
    have hfirst := he.fills hg
    obtain ⟨hfills, hwords⟩ := ih (he.pool_good hg).1
    refine ⟨hfirst.append hfills, fun constants hc => ?_⟩
    exact .cons (hfirst.words constants
      ((hrest.pool_good (he.pool_good hg).1).2.trans hc)) (hwords constants hc)

theorem Statement.laid_nodes {text : List Char} {lo hi : Nat} {ss : List Statement}
    (h : InRow Statement.position (Statement.Laid text) lo hi ss) :
    Node.Laid text lo hi (ss.flatMap (·.nodes)) := by
  induction h with
  | nil hle => exact .nil hle
  | cons hlo _ hgood _ ih =>
    rw [List.flatMap_cons]
    exact (hgood.nodes.mono hlo (Nat.le_refl _)).append ih

namespace Document

theorem allInOrder_nodes (d : Document) :
    Node.allInOrder d.nodes = d.sources.flatMap Source.inOrder := by
  unfold nodes
  induction d.sources with
  | nil => rfl
  | cons s ss ih => rw [List.flatMap_cons, List.flatMap_cons, Node.allInOrder_append, ih]; rfl

theorem laid_nodes (table : Table) (text : List Char) :
    Node.Laid text 0 text.length (read table text).nodes := by
  have hnodes : (read table text).nodes =
      ((read table text).sources.flatMap (·.statements)).flatMap (·.nodes) := by
    rw [nodes, List.flatMap_assoc]
  rw [hnodes]
  exact Statement.laid_nodes (row_statements table text)

/-- The constants of compiled code are the values of the numerals of the text, from left to right
and each once, and the word of a numeral reads the one with its value. -/
theorem compile_constants (table : Table) (memory : String) (text : List Char) (code : Bytecode)
    (h : (read table text).compile table memory = .ok code) :
    let numerals := Node.numerals (read table text).nodes
    let values := (numerals.filterMap Node.literal?).eraseDups
    (∀ n, n ∈ numerals ↔ n.isNumeral = true ∧ ∃ root ∈ (read table text).nodes, n.Occurs root) ∧
      numerals.Pairwise (fun n n' => n.position.last < n'.position.first) ∧
      code.constants = values.map decimal ∧ code.constants.Nodup ∧
      code.constants.length ≤ 32768 ∧
      ∃ number op, table.lookup memory = some (number, op) ∧
        List.Forall₂ (fun (s : Source) bytes =>
          List.Forall₂ (Node.HasWord number values) s.inOrder (Instruction.decode bytes))
          (read table text).sources code.sources := by
  intro numerals values
  obtain ⟨number, op, wss, pool, hlookup, -, hemits, rfl⟩ := compile_emits h
  obtain ⟨hfills, hwords⟩ := hemits.fills Pool.good_empty
  have hgood := (hemits.pool_good Pool.good_empty).1
  have hvalues : pool.values.toList = values := by
    rw [hfills.values, Pool.foldl_extend, ← allInOrder_nodes, ← Node.filterMap_numerals]
    simp [values, numerals]
  refine ⟨?_, (laid_nodes table text).numerals.2, ?_, ?_, ?_, number, op, hlookup, ?_⟩
  · intro n
    simp only [numerals, Node.numerals, List.mem_filter, Node.mem_allInOrder, and_comm]
  · rw [← hvalues]
    rfl
  · exact hgood.valid.nodup.map decimal_injective
  · simp only [Pool.texts, List.length_map, Array.length_toList]
    exact hfills.room (by simp [Pool.size])
  · rw [List.forall₂_map_right_iff]
    simp only [Instruction.decode_encode]
    exact hwords values (by rw [hvalues])

theorem compile_constants_shared :
    let d := read Table.builtin "a b: add(0x10 mul(16 3)) 1e1; _: add(10 3);".toList
    let code : Bytecode := ⟨[Instruction.encode [⟨0, 1⟩, ⟨0, 1⟩, ⟨0, 3⟩, ⟨3, 2⟩, ⟨1, 2⟩, ⟨0, 5⟩],
      Instruction.encode [⟨0, 5⟩, ⟨0, 3⟩, ⟨1, 2⟩]], ["16", "3", "10"]⟩
    d.compile Table.builtin "read-memory" = .ok code ∧
      (Node.numerals d.nodes).Pairwise (fun n n' => n.position.last < n'.position.first) ∧
      code.constants =
        ((Node.numerals d.nodes).filterMap Node.literal?).eraseDups.map decimal := by
  intro d code
  have hd : d.compile Table.builtin "read-memory" = .ok code := by decide +kernel
  obtain ⟨-, horder, hconstants, -⟩ := compile_constants Table.builtin "read-memory" _ code hd
  exact ⟨hd, horder, hconstants⟩

end Document

end Wordcode
