import Wordcode.Proofs.Documents
import Wordcode.Proofs.Scanning
import Wordcode.Proofs.Segmentation

namespace Wordcode

namespace Node

mutual

def term : Node → Term
  | .value raw _ _ _ => .literal raw
  | .reference name _ _ => .reference name
  | .call head params _ => .call head.name (head.arguments.map (·.value)) (terms params)

def terms : List Node → List Term
  | [] => []
  | n :: rest => n.term :: terms rest

end

theorem terms_eq_map (ns : List Node) : terms ns = ns.map term := by
  induction ns with
  | nil => simp [terms]
  | cons n ns ih => simp [terms, ih]

theorem terms_append (ns ms : List Node) : terms (ns ++ ms) = terms ns ++ terms ms := by
  simp [terms_eq_map]

theorem length_terms (ns : List Node) : (terms ns).length = ns.length := by
  simp [terms_eq_map]

theorem terms_eq_cons {ns : List Node} {t : Term} {ts : List Term} (h : terms ns = t :: ts) :
    ∃ n rest, ns = n :: rest ∧ n.term = t ∧ terms rest = ts := by
  rw [terms_eq_map] at h
  obtain ⟨n, rest, rfl, hn, hr⟩ := List.map_eq_cons_iff.mp h
  exact ⟨n, rest, rfl, hn, by rw [terms_eq_map, hr]⟩

theorem term_eq_literal {n : Node} {raw : String} (h : n.term = .literal raw) :
    ∃ v p tags, n = .value raw v p tags := by
  cases n <;> simp_all [term]

theorem term_eq_reference {n : Node} {name : String} (h : n.term = .reference name) :
    ∃ p tags, n = .reference name p tags := by
  cases n <;> simp_all [term]

theorem term_eq_call {n : Node} {name : String} {arguments : List Nat} {params : List Term}
    (h : n.term = .call name arguments params) :
    ∃ head ps tags, n = .call head ps tags ∧ head.name = name ∧
      head.arguments.map (·.value) = arguments ∧ terms ps = params := by
  cases n <;> simp_all [term]

theorem outputsOf_append (ns ms : List Node) :
    outputsOf (ns ++ ms) = outputsOf ns + outputsOf ms := by
  simp [outputsOf]

theorem terms_tagged {ns ns' : List Node} (h : List.Forall₂ Tagged ns ns') :
    terms ns' = terms ns := by
  induction h with
  | nil => rfl
  | @cons n n' _ _ hn _ ih =>
    have ht : n'.term = n.term := by
      obtain ⟨labels, rfl⟩ := hn
      cases n <;> simp [attach, term]
    rw [terms, terms, ht, ih]

end Node

theorem readArgument_decimal {item : Label} {a : Nat} (h : item.name = decimal a)
    (ha : a ≤ maxArgument) : readArgument item = .ok ⟨a, item.position⟩ := by
  have hmax : a ≤ Literal.maxValue := ha.trans (by decide)
  simp [readArgument, h, Literal.isNumeric_decimal, Literal.read_decimal hmax, ha]

theorem readArguments_decimal {items : List Label} {arguments : List Nat}
    (h : items.map (·.name) = arguments.map decimal) (hb : ∀ a ∈ arguments, a ≤ maxArgument) :
    ∃ found : List Argument, items.map readArgument = found.map .ok ∧
      found.map (·.value) = arguments := by
  induction items generalizing arguments with
  | nil =>
    have ha : arguments = [] := by simpa using h.symm
    exact ⟨[], rfl, ha.symm⟩
  | cons item items ih =>
    cases arguments with
    | nil => simp at h
    | cons a arguments =>
      simp only [List.map_cons, List.cons.injEq] at h
      obtain ⟨found, hf, hv⟩ := ih h.2 fun b hm => hb b (by simp [hm])
      refine ⟨⟨a, item.position⟩ :: found, ?_, by simp [hv]⟩
      rw [List.map_cons, List.map_cons, readArgument_decimal h.1 (hb a (by simp)), hf]

namespace Word.Opens

variable {w : Word} {name : String} {arguments : List Nat}

theorem arguments_eq (h : w.Opens name arguments) (hb : ∀ a ∈ arguments, a ≤ maxArgument) :
    w.arguments.map (·.value) = arguments := by
  rcases h.operand with ⟨ho, rfl⟩ | ⟨t, ho, -, ht⟩
  · simp [Word.arguments, ho]
  · obtain ⟨found, hf, hv⟩ := readArguments_decimal ht hb
    rw [← hv]
    simp [Word.arguments, ho, OperandText.arguments, OperandText.results, hf, List.filterMap_map]

theorem operandProblems_eq_nil (h : w.Opens name arguments)
    (hb : ∀ a ∈ arguments, a ≤ maxArgument) {op : Opcode} (ha : arguments.length = op.arity) :
    w.operandProblems (some op) = [] := by
  have hv := congrArg List.length (h.arguments_eq hb)
  rw [List.length_map] at hv
  rcases h.operand with ⟨ho, -⟩ | ⟨t, ho, hc, ht⟩
  · simp [Word.operandProblems, ho]
  · obtain ⟨found, hf, -⟩ := readArguments_decimal ht hb
    have hp : t.problems = [] := by
      simp [OperandText.problems, OperandText.results, hf, List.filterMap_map, hc]
    simp only [Word.arguments, ho] at hv
    simp [Word.operandProblems, ho, hp, OperandText.mismatch?, hv, ha]

theorem lacksArguments_eq_false (h : w.Opens name arguments) {op : Opcode}
    (ha : arguments.length = op.arity) : w.lacksArguments (some op) = false := by
  rcases h.operand with ⟨ho, rfl⟩ | ⟨t, ho, -⟩
  · simp only [List.length_nil] at ha
    simp [Word.lacksArguments, ho, Opcode.takesArguments, ← ha]
  · simp [Word.lacksArguments, ho]

end Word.Opens

theorem Call.resolve_of_accepts {c : Call} {op : Opcode} {params outputs : Nat} {operand : UInt16}
    {nested : Bool} (h : op.Accepts (c.arguments.map (·.value)) params operand outputs)
    (hn : nested = true → outputs = 1) : c.resolve op params nested = .ok ⟨operand, outputs⟩ := by
  have hone : (nested && outputs != 1) = false := by
    cases nested with
    | false => rfl
    | true => simp [hn rfl]
  simp [resolve, h.packs, h.takes, h.gives, hone]

/-- What is in reach of the words of a statement. -/
structure Context.Fits (ctx : Context) (table : Table) (bound pending : List String) : Prop where
  table : ctx.table = table
  scope : ∀ name, ctx.scope.contains name = true ↔ name ∈ bound
  pending : ctx.pending = pending

namespace Reading

theorem frames_push (r : Reading) (n : Node) :
    (r.push n).frames.isEmpty = r.frames.isEmpty := by
  unfold push
  split
  · rfl
  · rename_i hf
    simp [hf]

theorem frames_pushAll (r : Reading) (ns : List Node) :
    (ns.foldl push r).frames.isEmpty = r.frames.isEmpty := by
  induction ns generalizing r with
  | nil => rfl
  | cons n ns ih => rw [List.foldl_cons, ih, frames_push]

theorem pushAll_frame (r : Reading) (f : Frame) (ns : List Node) :
    ns.foldl push { r with frames := f :: r.frames } =
      { r with frames := { f with parameters := ns.reverse ++ f.parameters } :: r.frames } := by
  induction ns generalizing f with
  | nil => rfl
  | cons n ns ih =>
    have hp : ({ r with frames := f :: r.frames } : Reading).push n =
        { r with frames := { f with parameters := n :: f.parameters } :: r.frames } := rfl
    rw [List.foldl_cons, hp, ih]
    simp

theorem pushAll_nodes (ns : List Node) (r : Reading) (h : r.frames = []) :
    ns.foldl push r = { r with nodes := ns.reverse ++ r.nodes } := by
  induction ns generalizing r with
  | nil => rfl
  | cons n ns ih =>
    have hp : r.push n = { r with nodes := n :: r.nodes } := by
      unfold push
      rw [h]
    rw [List.foldl_cons, hp, ih { r with nodes := n :: r.nodes } h]
    simp

/-- The tokens add the nodes to whatever is read before, and no problem. -/
def Adds (ctx : Context) (nested : Bool) (tokens : List Token) (ns : List Node) : Prop :=
  ∀ r : Reading, (!r.frames.isEmpty) = nested → tokens.foldl (step ctx) r = ns.foldl push r

variable {ctx : Context} {nested : Bool}

theorem Adds.append {ts us : List Token} {ns ms : List Node} (h : Adds ctx nested ts ns)
    (h' : Adds ctx nested us ms) : Adds ctx nested (ts ++ us) (ns ++ ms) := by
  intro r hr
  rw [List.foldl_append, List.foldl_append, h r hr]
  apply h'
  rw [frames_pushAll, hr]

/-- The text is read as the terms, wherever it stands and whatever comes behind it. -/
def Scans (ctx : Context) (nested : Bool) (cs : List Char) (ts : List Term) (n : Nat) : Prop :=
  ∀ i rest, Token.Ends rest → ∃ tokens ns j,
    Token.scanFrom i .between [] (cs ++ rest) = tokens ++ Token.scanFrom j .between [] rest ∧
      Adds ctx nested tokens ns ∧ Node.terms ns = ts ∧ Node.outputsOf ns = n

theorem scans_nil : Scans ctx nested [] [] 0 := by
  intro i rest _
  exact ⟨[], [], i, rfl, fun _ _ => rfl, rfl, rfl⟩

theorem Scans.cons {t : Term} {ts : List Term} {k n : Nat} (h : Scans ctx nested t.chars [t] k)
    (hs : Scans ctx nested (Term.spell ts) ts n) :
    Scans ctx nested (Term.spell (t :: ts)) (t :: ts) (k + n) := by
  intro i rest hrest
  cases ts with
  | nil =>
    obtain ⟨_, ms, _, _, _, hm, hn⟩ := hs 0 [] Token.ends_nil
    have hempty : ms = [] := by
      have hl := congrArg List.length hm
      simpa [Node.length_terms] using hl
    subst hempty
    rw [← hn]
    simpa [Term.spell] using h i rest hrest
  | cons u ts =>
    obtain ⟨tokens, ns, j, hscan, hadds, hterms, houts⟩ :=
      h i (' ' :: Term.spell (u :: ts) ++ rest) (Token.ends_blank _)
    obtain ⟨tokens', ms, j', hscan', hadds', hterms', houts'⟩ := hs (j + 1) rest hrest
    have htext : Term.spell (t :: u :: ts) ++ rest =
        t.chars ++ (' ' :: Term.spell (u :: ts) ++ rest) := by
      simp [Term.spell]
    refine ⟨tokens ++ tokens', ns ++ ms, j', ?_, hadds.append hadds', ?_, ?_⟩
    · rw [htext, hscan, List.cons_append, Token.scan_blank, hscan', List.append_assoc]
    · rw [Node.terms_append, hterms, hterms']
      rfl
    · rw [Node.outputsOf_append, houts, houts']

variable {table : Table} {bound pending : List String}

theorem scans_literal (hf : ctx.Fits table bound pending) {raw : String} {v : Nat}
    (hw : IsWord raw.toList) (hv : Literal.read raw = .ok v) (hb : raw ∉ bound)
    (hp : raw ∉ pending) : Scans ctx nested (Term.literal raw).chars [.literal raw] 1 := by
  intro i rest hrest
  let w := Token.wordOf i raw.toList.reverse
  have hname : w.name = raw := by simp [w, Token.wordOf]
  refine ⟨[.word w], [.value raw (some v) w.position []], i + raw.toList.length, ?_, ?_, ?_, rfl⟩
  · rw [Term.chars_literal, Token.scan_word i hw, Token.scan_word_end _ hrest]
    rfl
  · intro r _
    have hscope : ctx.scope.contains w.name = false := by
      rw [← Bool.not_eq_true, hf.scope, hname]
      exact hb
    have hpending : ctx.pending.contains w.name = false := by
      rw [hf.pending, hname]
      simpa using hp
    have hnumeral : (Literal.isNumeric w.name || Literal.isSentinel w.name) = true := by
      rw [hname]
      exact Literal.isNumeral_of_read hv
    have hread : readValue w = .ok v := by
      rw [readValue, hname, hv]
    have hplain : plainWord? ctx r w = some (r.push (.value w.name (some v) w.position [])) := by
      rw [plainWord?, hscope, hpending, hnumeral, hread]
      rfl
    rw [hname] at hplain
    have hcall : w.isCall = false := rfl
    simp [step, word, hcall, hplain]
  · simp [Node.terms, Node.term]

theorem scans_reference (hf : ctx.Fits table bound pending) {name : String}
    (hw : IsWord name.toList) (hb : name ∈ bound) :
    Scans ctx nested (Term.reference name).chars [.reference name] 1 := by
  intro i rest hrest
  let w := Token.wordOf i name.toList.reverse
  have hname : w.name = name := by simp [w, Token.wordOf]
  refine ⟨[.word w], [.reference name w.position []], i + name.toList.length, ?_, ?_, ?_, rfl⟩
  · rw [Term.chars_reference, Token.scan_word i hw, Token.scan_word_end _ hrest]
    rfl
  · intro r _
    have hscope : ctx.scope.contains w.name = true := by
      rw [hf.scope, hname]
      exact hb
    have hplain : plainWord? ctx r w = some (r.push (.reference w.name w.position [])) := by
      rw [plainWord?, hscope]
      rfl
    rw [hname] at hplain
    have hcall : w.isCall = false := rfl
    simp [step, word, hcall, hplain]
  · simp [Node.terms, Node.term]

theorem scans_call (hf : ctx.Fits table bound pending) {name : String} {arguments : List Nat}
    {params : List Term} {number operand : UInt16} {op : Opcode} {outputs k : Nat}
    (hw : IsWord name.toList) (hl : table.lookup name = some (number, op))
    (ha : op.Accepts arguments params.length operand outputs) (hn : nested = true → outputs = 1)
    (hparams : Scans ctx true (Term.spell params) params k) :
    Scans ctx nested (Term.call name arguments params).chars [.call name arguments params]
      outputs := by
  intro i rest hrest
  obtain ⟨j, w, hscan, hopens⟩ := Token.scan_opening i hw arguments
    (Term.spell params ++ ')' :: rest)
  obtain ⟨tokens, ns, stop, hscan', hadds, hterms, -⟩ :=
    hparams j (')' :: rest) (Token.ends_close rest)
  obtain ⟨paren, hparen⟩ := hopens.paren
  let f : Frame := ⟨w.call (some number), some op, paren, false, ns.reverse⟩
  have hargs : w.arguments.map (·.value) = arguments := hopens.arguments_eq ha.bounded
  have hresolve : (f.closed stop).resolve op ns.length nested = .ok ⟨operand, outputs⟩ := by
    refine Call.resolve_of_accepts ?_ hn
    rw [← Node.length_terms, hterms]
    change op.Accepts (w.arguments.map (·.value)) _ _ _
    rw [hargs]
    exact ha
  let n : Node := .call ((f.closed stop).resolved ⟨operand, outputs⟩) ns []
  refine ⟨.word w :: tokens ++ [.close stop], [n], stop + 1, ?_, ?_, ?_, ?_⟩
  · rw [Term.chars_call]
    simp only [List.append_assoc, List.cons_append, List.nil_append] at hscan hscan' ⊢
    rw [hscan, hscan', Token.scan_close]
  · intro r hr
    have hopen : step ctx r (.word w) =
        { r with frames := ⟨w.call (some number), some op, paren, false, []⟩ :: r.frames } := by
      have hcall : w.isCall = true := by simp [Word.isCall, hparen]
      rw [← callWord_opens r hparen (hopens.operandProblems_eq_nil ha.bounded ha.arity)
        (hopens.lacksArguments_eq_false ha.arity)]
      simp [step, word, hcall, opcodeWord, hf.table, hopens.name, hl]
    have hclose : f.close stop (!r.frames.isEmpty) = (n, []) := by
      rw [hr]
      simp [Frame.close, f, n, List.reverse_reverse] at hresolve ⊢
      rw [hresolve]
    have hfold : (Token.word w :: tokens ++ [Token.close stop]).foldl (step ctx) r =
        close (tokens.foldl (step ctx) (step ctx r (.word w))) stop := by
      rw [List.foldl_append]
      rfl
    rw [hfold, hopen, hadds _ rfl, pushAll_frame, List.append_nil]
    change close { r with frames := f :: r.frames } stop = r.push n
    simp only [close, hclose, reportAll, List.reverse_nil, List.nil_append]
  · simp [Node.terms, Node.term, n, f, Frame.closed, Call.resolved, Word.call, hopens.name, hargs,
      hterms]
  · simp [n, Node.outputCount?, Call.resolved]

theorem scans_of_readable (hf : ctx.Fits table bound pending) {ts : List Term}
    {n : Nat} (h : Term.Readable table bound pending nested ts n) :
    Scans ctx nested (Term.spell ts) ts n := by
  induction h with
  | nil => exact scans_nil
  | literal hw hv hb hp _ ih => exact (scans_literal hf hw hv hb hp).cons ih
  | reference hw hb _ ih => exact (scans_reference hf hw hb).cons ih
  | call hw hl ha hn _ _ ihp ih => exact (scans_call hf hw hl ha hn ihp).cons ih

theorem read_of_readable (hf : ctx.Fits table bound pending) {ts : List Term} {n : Nat}
    (h : Term.Readable table bound pending false ts n) {right : Segment}
    (hr : right.chars = if ts.isEmpty then [] else ' ' :: Term.spell ts) :
    ∃ ns, read ctx right = { nodes := ns.reverse } ∧ Node.terms ns = ts ∧
      Node.outputsOf ns = n := by
  have hscans : ∃ tokens ns, Token.scan right = tokens ∧ Adds ctx false tokens ns ∧
      Node.terms ns = ts ∧ Node.outputsOf ns = n := by
    have hs := scans_of_readable hf h
    unfold Token.scan
    cases ts with
    | nil =>
      obtain ⟨tokens, ns, j, hscan, hadds, ht⟩ := hs right.start [] Token.ends_nil
      simp only [List.isEmpty_nil, if_true] at hr
      rw [hr]
      refine ⟨tokens, ns, ?_, hadds, ht⟩
      simpa [Term.spell, Token.scanFrom, Token.Mode.finish] using hscan
    | cons t ts =>
      obtain ⟨tokens, ns, j, hscan, hadds, ht⟩ := hs (right.start + 1) [] Token.ends_nil
      simp only [List.isEmpty_cons, Bool.false_eq_true, if_false] at hr
      rw [hr, Token.scan_blank]
      refine ⟨tokens, ns, ?_, hadds, ht⟩
      simpa [Token.scanFrom, Token.Mode.finish] using hscan
  obtain ⟨tokens, ns, hscan, hadds, hterms, houts⟩ := hscans
  refine ⟨ns, ?_, hterms, houts⟩
  have hfold : tokens.foldl (step ctx) {} = { nodes := ns.reverse } := by
    rw [hadds {} rfl, pushAll_nodes ns {} rfl]
    simp
  rw [read_eq, hscan, hfold]
  rfl

end Reading

theorem IsWord.solid {w : List Char} (h : IsWord w) :
    ∃ cs c, w = cs ++ [c] ∧ isBlank c = false := by
  obtain ⟨hne, hw⟩ := h
  refine ⟨w.dropLast, w.getLast hne, (List.dropLast_append_getLast hne).symm, ?_⟩
  exact Token.isBlank_of_isWordChar (hw _ (List.getLast_mem hne))

namespace Term

theorem solid_cons {t : Term} {ts : List Term}
    (h : ∃ cs c, t.chars = cs ++ [c] ∧ isBlank c = false)
    (hs : ts ≠ [] → ∃ cs c, spell ts = cs ++ [c] ∧ isBlank c = false) :
    ∃ cs c, spell (t :: ts) = cs ++ [c] ∧ isBlank c = false := by
  cases ts with
  | nil => simpa [spell] using h
  | cons u ts =>
    obtain ⟨cs, c, hc, hb⟩ := hs (by simp)
    refine ⟨t.chars ++ ' ' :: cs, c, ?_, hb⟩
    rw [List.append_assoc, List.cons_append, ← hc]
    simp [spell]

variable {table : Table} {bound pending : List String} {nested : Bool} {ts : List Term} {n : Nat}

theorem Readable.solid (h : Readable table bound pending nested ts n) (hne : ts ≠ []) :
    ∃ cs c, spell ts = cs ++ [c] ∧ isBlank c = false := by
  induction h with
  | nil => exact absurd rfl hne
  | literal hw _ _ _ _ ih =>
    refine solid_cons ?_ ih
    rw [chars_literal]
    exact hw.solid
  | reference hw _ _ ih =>
    refine solid_cons ?_ ih
    rw [chars_reference]
    exact hw.solid
  | call _ _ _ _ _ _ _ ih =>
    refine solid_cons ?_ ih
    rw [chars_call]
    exact ⟨_, ')', rfl, by decide⟩

theorem Readable.trimEnd_spell (h : Readable table bound pending nested ts n) :
    trimEnd (' ' :: spell ts) = if ts.isEmpty then [] else ' ' :: spell ts := by
  by_cases hne : ts = []
  · subst hne
    decide
  · obtain ⟨cs, c, hc, hb⟩ := h.solid hne
    have hempty : ts.isEmpty = false := by simpa using hne
    rw [hc, ← List.cons_append, trimEnd_of_solid hb, hempty]
    rfl

end Term

end Wordcode
