import Wordcode.Proofs.Pretty
import Wordcode.Proofs.Tables
import Wordcode.Proofs.Tags
import Wordcode.Proofs.Values

namespace Wordcode

/-- Nodes that mean what they say behind statements with the names `bound`, in one with the names
`pending`: a numeral has the value that it spells and is spelled like no name, a reference is to an
earlier name, and a call is one of an opcode under any of its names, which takes its arguments and
parameters. The parameters of a call leave one value each. -/
inductive Node.Proper (entries : List Opcode) (bound pending : List String) :
    Bool → List Node → Prop
  | nil {nested : Bool} : Proper entries bound pending nested []
  | value {nested : Bool} {raw : String} {v : Nat} {p : Position} {tags : List Label}
      {rest : List Node} : Literal.Means raw v → raw ∉ bound → raw ∉ pending →
      Proper entries bound pending nested rest →
      Proper entries bound pending nested (.value raw (some v) p tags :: rest)
  | reference {nested : Bool} {name : String} {p : Position} {tags : List Label}
      {rest : List Node} : name ∈ bound → Proper entries bound pending nested rest →
      Proper entries bound pending nested (.reference name p tags :: rest)
  | call {nested : Bool} {head : Call} {params : List Node} {tags : List Label}
      {rest : List Node} {number operand : UInt16} {op : Opcode} {word : String} {outputs : Nat} :
      entries[number.toNat]? = some op → word ∈ op.names →
      normalize head.name = normalize word → head.opcode = some number →
      head.operand = some operand → head.outputs = some outputs →
      op.Accepts (head.arguments.map (·.value)) params.length operand outputs →
      (nested = true → outputs = 1) → Proper entries bound pending true params →
      Proper entries bound pending nested rest →
      Proper entries bound pending nested (.call head params tags :: rest)

/-- A statement behind the labels `before`: its names are new, its nodes are proper and have one
name on each output, in the order of the names on the left. -/
structure Statement.Proper (entries : List Opcode) (before : List Label) (s : Statement) :
    Prop where
  named : ∀ l ∈ s.labels, l.name = "_" ∨ isName l.name = true
  fresh : (Scope.bound (before ++ s.labels)).Nodup
  nodes : Node.Proper entries (Scope.bound before) (Scope.bound s.labels) false s.nodes
  tidy : ∀ n ∈ s.nodes, n.Tidy
  counted : ∀ n ∈ s.nodes, n.outputCount? = some n.tags.length
  tagged : s.nodes.flatMap (·.tags) = s.labels

def Statement.AllProper (entries : List Opcode) : List Label → List Statement → Prop
  | _, [] => True
  | before, s :: rest => s.Proper entries before ∧ AllProper entries (before ++ s.labels) rest

/-- A document that can be written, whether it was read from a text or not. -/
def Document.Proper (entries : List Opcode) (d : Document) : Prop :=
  ∀ source ∈ d.sources, Statement.AllProper entries [] source.statements

mutual

def Node.literals : Node → List String
  | .value raw _ _ _ => [raw]
  | .reference .. => []
  | .call _ params _ => literalsOf params

def Node.literalsOf : List Node → List String
  | [] => []
  | n :: rest => n.literals ++ literalsOf rest

end

def Document.literals (d : Document) : List String :=
  d.sources.flatMap fun source => source.statements.flatMap fun s => Node.literalsOf s.nodes

theorem Table.isWord_of_mem_names {entries : List Opcode} {table : Table}
    (h : ofEntries entries = .ok table) {i : Nat} {op : Opcode} (hop : entries[i]? = some op)
    {name word : String} (hw : word ∈ op.names) (hn : normalize name = normalize word) :
    IsWord name.toList := by
  obtain ⟨hi, -⟩ := ofEntries_ok h
  have hmem : (op, i) ∈ entries.zipIdx := List.mk_mem_zipIdx_iff_getElem?.mpr hop
  have hfault := ((addEntries_ok hi).2 op _ hmem).1
  obtain ⟨hname, haliases, -⟩ := Opcode.fault?_eq_none_iff.mp hfault
  refine isWord_of_normalize ?_ hn
  obtain rfl | hw := List.mem_cons.mp hw
  · exact hname
  · exact haliases word hw

section

variable {entries : List Opcode} {table : Table} {before : List Label}

theorem Node.Proper.typed (ht : Table.ofEntries entries = .ok table) {pending : List String}
    {nested : Bool} {ns : List Node}
    (h : Proper entries (Scope.bound before) pending nested ns)
    (hreach : ∀ raw ∈ literalsOf ns, Literal.InReach raw) :
    Typed table (Scope.after before) nested ns := by
  induction h with
  | nil => exact .nil
  | value hv _ _ _ ih =>
    rw [literalsOf, literals, List.singleton_append, List.forall_mem_cons] at hreach
    exact .value ((Literal.read_eq_ok_iff_means hreach.1).mpr hv) (ih hreach.2)
  | reference hb _ ih => exact .reference (Scope.contains_after.mpr hb) (ih hreach)
  | call hop hw hn ho hr hu ha hone _ _ ihp ih =>
    rw [literalsOf, literals, List.forall_mem_append] at hreach
    exact .call (r := ⟨_, _⟩) (Table.lookup_of_mem_names ht hop hw hn) ho ⟨hr, hu⟩ ha hone
      (ihp hreach.1) (ih hreach.2)

theorem Node.Proper.readable (ht : Table.ofEntries entries = .ok table)
    {bound pending : List String} (hb : ∀ name ∈ bound, IsWord name.toList) {nested : Bool}
    {ns : List Node} (h : Proper entries bound pending nested ns)
    (hreach : ∀ raw ∈ literalsOf ns, Literal.InReach raw) :
    Term.Readable table bound pending nested (terms ns) (outputsOf ns) := by
  induction h with
  | nil => exact .nil
  | value hv hnb hnp _ ih =>
    rw [literalsOf, literals, List.singleton_append, List.forall_mem_cons] at hreach
    have hread := (Literal.read_eq_ok_iff_means hreach.1).mpr hv
    exact .literal (Literal.isWord_of_read hread) hread hnb hnp (ih hreach.2)
  | reference hm _ ih => exact .reference (hb _ hm) hm (ih hreach)
  | call hop hw hn _ _ hu ha hone _ _ ihp ih =>
    rw [literalsOf, literals, List.forall_mem_append] at hreach
    rw [← length_terms] at ha
    rw [outputsOf_cons, outputCount?, hu]
    exact .call (Table.isWord_of_mem_names ht hop hw hn) (Table.lookup_of_mem_names ht hop hw hn)
      ha hone (ihp hreach.1) (ih hreach.2)

theorem Scope.isWord_of_mem_bound {labels : List Label} {name : String}
    (h : name ∈ Scope.bound labels) : IsWord name.toList := by
  rw [Scope.bound_eq_bindable, bindable, List.mem_filter, Bool.and_eq_true] at h
  exact isWord_of_isName h.2.2

namespace Statement

theorem Proper.settled (ht : Table.ofEntries entries = .ok table) {s : Statement}
    (h : s.Proper entries before) (hreach : ∀ raw ∈ Node.literalsOf s.nodes, Literal.InReach raw) :
    s.Settled table :=
  ⟨⟨_, h.nodes.typed ht hreach⟩, h.tidy, h.counted, h.tagged⟩

theorem Proper.outputsOf_eq {s : Statement} (h : s.Proper entries before) :
    Node.outputsOf s.nodes = s.labels.length := by
  rw [← h.tagged, List.length_flatMap, Node.outputsOf]
  congr 1
  refine List.map_congr_left fun n hn => ?_
  rw [h.counted n hn]
  rfl

theorem Proper.readable (ht : Table.ofEntries entries = .ok table) {s : Statement}
    (h : s.Proper entries before) (hreach : ∀ raw ∈ Node.literalsOf s.nodes, Literal.InReach raw) :
    s.clause.Readable table (before.map (·.name)) := by
  have hterms := h.nodes.readable ht (fun _ => Scope.isWord_of_mem_bound) hreach
  rw [h.outputsOf_eq, Scope.bound_eq_bindable, Scope.bound_eq_bindable] at hterms
  refine ⟨?_, ?_, by simpa [clause] using hterms⟩
  · intro name hn
    obtain ⟨l, hl, rfl⟩ := List.mem_map.mp hn
    exact h.named l hl
  · have hfresh := h.fresh
    rw [Scope.bound_eq_bindable, List.map_append] at hfresh
    exact hfresh

theorem AllProper.settled (ht : Table.ofEntries entries = .ok table) {ss : List Statement}
    (h : AllProper entries before ss)
    (hreach : ∀ s ∈ ss, ∀ raw ∈ Node.literalsOf s.nodes, Literal.InReach raw) :
    ∀ s ∈ ss, s.Settled table := by
  induction ss generalizing before with
  | nil => simp
  | cons s ss ih =>
    rw [List.forall_mem_cons] at hreach ⊢
    exact ⟨h.1.settled ht hreach.1, ih h.2 hreach.2⟩

theorem AllProper.allReadable (ht : Table.ofEntries entries = .ok table) {ss : List Statement}
    (h : AllProper entries before ss)
    (hreach : ∀ s ∈ ss, ∀ raw ∈ Node.literalsOf s.nodes, Literal.InReach raw) :
    Clause.AllReadable table (before.map (·.name)) (ss.map clause) := by
  induction ss generalizing before with
  | nil => trivial
  | cons s ss ih =>
    rw [List.forall_mem_cons] at hreach
    have hrest := ih h.2 hreach.2
    rw [List.map_append] at hrest
    exact ⟨h.1.readable ht hreach.1, hrest⟩

end Statement

end

/-- A document that is written as a text, with blanks wherever they may be, comes back from it, if
its numerals are in reach. -/
theorem Document.Proper.read_text {entries : List Opcode} {table : Table}
    (ht : Table.ofEntries entries = .ok table) {d : Document} (h : d.Proper entries)
    (hreach : ∀ raw ∈ d.literals, Literal.InReach raw) {text : List Char}
    (hr : Reflow true d.script.text.toList text) :
    (read table text).problems = [] ∧ (read table text).comments = [] ∧
      (read table text).sources.map Source.bare = d.sources.map Source.bare := by
  have hstatements : ∀ source ∈ d.sources, ∀ s ∈ source.statements,
      ∀ raw ∈ Node.literalsOf s.nodes, Literal.InReach raw := by
    intro source hm s hs raw hraw
    exact hreach raw (List.mem_flatMap.mpr ⟨source, hm, List.mem_flatMap.mpr ⟨s, hs, hraw⟩⟩)
  have hreadable : ∀ clauses ∈ d.script, Clause.AllReadable table [] clauses := by
    intro clauses hc
    obtain ⟨source, hm, rfl⟩ := List.mem_map.mp hc
    exact (h source hm).allReadable ht (hstatements source hm)
  obtain ⟨hp, hscript⟩ := read_script hreadable
  obtain ⟨hp', hbare⟩ := read_reflow hr hp
  have hstar : '*' ∉ text := by
    rw [← hr.mem_iff (by decide)]
    exact Script.notMem_text hreadable
  refine ⟨hp', by simp [read, stripComments_of_notMem hstar], ?_⟩
  rw [← hbare]
  refine map_bare_eq (read_settled hp) (fun source hm => ?_) hscript
  exact (h source hm).settled ht (hstatements source hm)

theorem Document.Proper.read_text_aliases :
    let first : Statement := ⟨default, [⟨"a", default⟩, ⟨"b", default⟩],
      [.call ⟨"CALL", some 24, default, none, some 0x122, some 2, [⟨1, default⟩, ⟨2, default⟩]⟩
        [.value "0x01" (some 1) default [], .value "Infinity" (some Literal.maxValue) default []]
        [⟨"a", default⟩, ⟨"b", default⟩]]⟩
    let second : Statement := ⟨default, [⟨"_", default⟩],
      [.call ⟨"Minus", some 2, default, none, some 2, some 1, []⟩ [.reference "a" default [],
        .call ⟨"loop_N", some 25, default, none, some 0x3031, some 1, [⟨3, default⟩, ⟨4, default⟩]⟩
          [.reference "b" default []] []] [⟨"_", default⟩]]⟩
    let d : Document := ⟨[⟨default, [first, second]⟩, ⟨default, []⟩], [], []⟩
    let text := "a b: CALL<1 2>(0x01 Infinity), _: Minus(a loop_N<3 4>(b));\n;".toList
    d.script.text.toList = text ∧ d.Proper Builtin.opcodes ∧
      (∀ raw ∈ d.literals, Literal.InReach raw) ∧
      ∀ t ∈ [text, Layout.pretty 2 text], (read Table.builtin t).problems = [] ∧
        (read Table.builtin t).sources.map Source.bare = d.sources.map Source.bare := by
  intro first second d text
  have htext : d.script.text.toList = text := by decide +kernel
  have hreach : ∀ raw ∈ d.literals, Literal.InReach raw := by
    have hlength : ∀ raw ∈ d.literals, raw.length < 2 ^ 32 - 64 := by decide +kernel
    exact fun raw hraw => .inl (hlength raw hraw)
  have hmeans : Literal.Means "0x01" 1 ∧ Literal.Means "Infinity" Literal.maxValue :=
    ⟨(Literal.read_eq_ok_iff_means (.inl (by decide))).mp (by decide +kernel),
      (Literal.read_eq_ok_iff_means (.inl (by decide))).mp (by decide +kernel)⟩
  have hfirst : first.Proper Builtin.opcodes [] := by
    refine ⟨by decide +kernel, by decide +kernel, ?_, ?_, by decide +kernel, by decide +kernel⟩
    · refine .call (show Builtin.opcodes[(24 : UInt16).toNat]? = _ from rfl) (.head _)
        (by decide +kernel) rfl rfl rfl ⟨rfl, by decide, by decide +kernel, by decide +kernel,
        by decide +kernel⟩ (by decide) ?_ .nil
      exact .value hmeans.1 (by decide) (by decide +kernel)
        (.value hmeans.2 (by decide) (by decide +kernel) .nil)
    · simp only [first, List.forall_mem_cons, Node.Tidy]
      exact ⟨⟨.value, .value, by simp⟩, by simp⟩
  have hsecond : second.Proper Builtin.opcodes first.labels := by
    refine ⟨by decide +kernel, by decide +kernel, ?_, ?_, by decide +kernel, by decide +kernel⟩
    · refine .call (show Builtin.opcodes[(2 : UInt16).toNat]? = _ from rfl) (.tail _ (.head _))
        (by decide +kernel) rfl rfl rfl ⟨rfl, by decide, by decide +kernel, by decide +kernel,
        by decide +kernel⟩ (by decide) (.reference (by decide +kernel) ?_) .nil
      refine .call (show Builtin.opcodes[(25 : UInt16).toNat]? = _ from rfl) (.head _)
        (by decide +kernel) rfl rfl rfl ⟨rfl, by decide, by decide +kernel, by decide +kernel,
        by decide +kernel⟩ (by decide) (.reference (by decide +kernel) .nil) .nil
    · simp only [second, List.forall_mem_cons, Node.Tidy]
      exact ⟨⟨.reference, .call (by simp [Node.Fresh.reference]), by simp⟩, by simp⟩
  have hproper : d.Proper Builtin.opcodes := by
    simp only [Document.Proper, d, List.forall_mem_cons]
    exact ⟨⟨hfirst, hsecond, trivial⟩, trivial, by simp⟩
  refine ⟨htext, hproper, hreach, fun t hm => ?_⟩
  have hreflow : Reflow true d.script.text.toList t := by
    rw [htext]
    simp only [List.mem_cons, List.not_mem_nil, or_false] at hm
    obtain rfl | rfl := hm
    · exact .refl true text
    · exact Layout.reflow_pretty 2 text
  obtain ⟨hp, -, hbare⟩ := hproper.read_text Table.ofEntries_builtin hreach hreflow
  exact ⟨hp, hbare⟩

namespace Reading

theorem mem_read_of_outOfRange {ctx : Context} {raw : String} {l : Literal}
    (hl : Literal.Spells raw.toList l) (hread : Literal.read raw = .error (.outOfRange raw))
    (hscope : ctx.scope.contains raw = false) (hpending : raw ∉ ctx.pending)
    {right : Segment} (hr : right.chars = ' ' :: raw.toList) :
    ∃ p ∈ (read ctx right).problems, p.code = .outOfRangeValue := by
  let w := Token.wordOf (right.start + 1) raw.toList.reverse
  have hname : w.name = raw := by simp [w, Token.wordOf]
  have hscan : Token.scan right = [.word w] := by
    rw [Token.scan, hr, Token.scan_blank, ← List.append_nil raw.toList, Token.scan_word _ hl.isWord,
      Token.scan_word_end _ Token.ends_nil]
    rfl
  have hnumeric : Literal.isNumeric raw = true := Literal.isNumeric_eq_true_iff.mpr ⟨l, hl⟩
  have hcall : w.isCall = false := rfl
  have hvalue : ∃ p, readValue w = .error p ∧ p.code = .outOfRangeValue := by
    simp [readValue, hname, hread]
  obtain ⟨p, hp, hcode⟩ := hvalue
  have hstep : step ctx {} (.word w) = ⟨[], [.value raw none w.position []], false, [p]⟩ := by
    simp [step, word, hcall, plainWord?, hname, hscope, hpending, hnumeric, hp, report, push]
  refine ⟨p, ?_, hcode⟩
  rw [read_eq, hscan, List.foldl_cons, List.foldl_nil, hstep]
  exact List.mem_cons_self

end Reading

theorem Statement.mem_ofSides_of_outOfRange (table : Table) {raw : String} {l : Literal}
    (hl : Literal.Spells raw.toList l) (hread : Literal.read raw = .error (.outOfRange raw))
    (position : Position) {left right : Segment} (hleft : left.chars = ['_'])
    (hright : right.chars = ' ' :: raw.toList) :
    ∃ p ∈ (ofSides table {} position left right).2, p.code = .outOfRangeValue := by
  have hpending : (left.labels.filter (·.isBindable)).map (·.name) = [] := by
    rw [Segment.labels, hleft]
    rfl
  have hscope : (Scope.after []).contains raw = false := by
    rw [Bool.eq_false_iff, ne_eq, Scope.contains_after]
    simp [Scope.bound]
  obtain ⟨p, hp, hcode⟩ := @Reading.mem_read_of_outOfRange ⟨table, {}, []⟩ raw l hl hread hscope
    (by simp) right hright
  refine ⟨p, ?_, hcode⟩
  unfold ofSides
  simp only [hpending, List.mem_append, List.mem_reverse]
  exact .inl (.inl (.inr hp))

theorem Segment.exists_statement {body : List Char} (hend : ';' ∉ body) (hcomma : ',' ∉ body)
    (hdepth : body.foldl parens 0 = 0) :
    ∃ source s, sources (body ++ [';']) = [source] ∧ source.statements = [s] ∧ s.chars = body := by
  have hsources : (sources (body ++ [';'])).map (·.chars) = [body] := by
    have hended := sources_ended (List.forall_mem_singleton.mpr hend)
    simpa [List.intercalate_cons_cons] using hended
  obtain ⟨source, hsource, hchars⟩ := List.map_eq_singleton_iff.mp hsources
  have hstatements : source.statements.map (·.chars) = [body] := by
    refine chars_splitOuter (List.forall_mem_singleton.mpr ⟨hcomma, hdepth⟩) ?_
    rw [hchars, List.intercalate_singleton]
  obtain ⟨s, hs, hchars⟩ := List.map_eq_singleton_iff.mp hstatements
  exact ⟨source, s, hsource, hs, hchars⟩

theorem Document.mem_problems_of_outOfRange (table : Table) {raw : String} {l : Literal}
    (hl : Literal.Spells raw.toList l) (hread : Literal.read raw = .error (.outOfRange raw)) :
    ∃ p ∈ (read table ('_' :: ':' :: ' ' :: raw.toList ++ [';'])).problems,
      p.code = .outOfRangeValue := by
  have hraw : IsPlain raw.toList := .of_isWord hl.isWord
  have hterms : IsPlain (' ' :: raw.toList) := .cons (.inr (by simp)) hraw
  have hnames : IsPlain ['_'] := .of_isWord ⟨by simp, List.forall_mem_singleton.mpr (by decide)⟩
  obtain ⟨source, s, hsource, hs, hchars⟩ :=
    @Segment.exists_statement ('_' :: ':' :: ' ' :: raw.toList)
      (by simpa using hraw.notMem (by simp)) (by simpa using hraw.notMem (by simp)) (hraw.depth 0)
  have htrim : s.trim.chars = ['_'] ++ ':' :: (' ' :: raw.toList) := by
    obtain ⟨cs, c, hcs, hc⟩ := hl.isWord.solid
    have hsolid := @trimEnd_of_solid ('_' :: ':' :: ' ' :: cs) c hc
    rw [Segment.trim, hchars, hcs]
    exact hsolid
  obtain ⟨left, right, hsides, hleft, hright⟩ := Segment.sides_of_isPlain hnames hterms htrim
  obtain ⟨p, hp, hcode⟩ := Statement.mem_ofSides_of_outOfRange table hl hread s.trim.position
    hleft hright
  have hne : s.trim.isEmpty = false := by
    rw [Segment.isEmpty, htrim]
    rfl
  have hstatement : (Source.ofSegment table source).2 =
      (Statement.ofSides table {} s.trim.position left right).2 := by
    simp [Source.ofSegment_eq, hs, Source.readFrom, Statement.ofSegment, hne, hsides]
  refine ⟨p, ?_, hcode⟩
  rw [read, stripComments_of_notMem (by simpa using hraw.notMem (by simp))]
  dsimp only
  rw [hsource]
  simpa [hstatement] using hp

def Document.single (raw : String) (v : Nat) : Document :=
  ⟨[⟨default, [⟨default, [⟨"_", default⟩],
    [.value raw (some v) default [⟨"_", default⟩]]⟩]⟩], [], []⟩

theorem Document.proper_single (entries : List Opcode) {raw : String} {v : Nat}
    (h : Literal.Means raw v) : (single raw v).Proper entries := by
  have hbound : Scope.bound [⟨"_", default⟩] = [] := by decide +kernel
  refine List.forall_mem_singleton.mpr ⟨⟨by simp, by simp [hbound], ?_, ?_, ?_, rfl⟩, trivial⟩
  · refine .value h (by simp [Scope.bound]) ?_ .nil
    rw [hbound]
    exact List.not_mem_nil
  · simp [Node.Tidy]
  · simp [Node.outputCount?, Node.tags]

theorem Document.toList_text_single (raw : String) (v : Nat) :
    (single raw v).script.text.toList = '_' :: ':' :: ' ' :: raw.toList ++ [';'] := by
  rw [Script.toList_text]
  simp [single, script, Statement.clause, Script.body, Clause.chars, Node.terms, Node.term,
    Term.spell, leading, List.intercalate_cons_cons]

/-- The numeral has the value that it spells, and its text is refused. -/
theorem Document.Proper.read_text_shifted :
    (single Literal.farWord (10 ^ 14)).Proper Builtin.opcodes ∧
      ∃ p ∈ (read Table.builtin (single Literal.farWord (10 ^ 14)).script.text.toList).problems,
        p.code = .outOfRangeValue := by
  refine ⟨proper_single Builtin.opcodes Literal.means_farWord, ?_⟩
  rw [toList_text_single]
  exact mem_problems_of_outOfRange Table.builtin Literal.spells_farWord Literal.read_farWord

end Wordcode
