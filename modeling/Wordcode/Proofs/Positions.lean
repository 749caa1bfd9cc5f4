import Wordcode.Proofs.Places
import Wordcode.Proofs.Soundness

namespace Wordcode

theorem readArgument_ok_position {item : Label} {a : Argument} (h : readArgument item = .ok a) :
    a.position = item.position := by
  unfold readArgument at h
  repeat' split at h
  all_goals cases h
  rfl

theorem readArgument_error_position {item : Label} {p : Problem}
    (h : readArgument item = .error p) : p.position = item.position := by
  unfold readArgument at h
  repeat' split at h
  all_goals cases h
  all_goals rfl

theorem readValue_error_position {w : Word} {p : Problem} (h : readValue w = .error p) :
    p.position = w.position := by
  unfold readValue at h
  split at h
  all_goals cases h
  all_goals rfl

namespace Word

variable {text : List Char} {w : Word}

theorem Stands.last_lt_stop (h : w.Stands text) : w.position.last < w.stop := by
  cases ho : w.operand with
  | none => simp [stop, ho]
  | some t =>
    obtain ⟨hstart, hlt, -⟩ := h.operand t ho
    simp only [stop, ho]
    omega

theorem Stands.argument_within (h : w.Stands text) :
    ∀ a ∈ w.arguments, a.position.Within (w.position.last + 1) w.stop := by
  intro a ha
  unfold arguments at ha
  split at ha
  · rename_i t ht
    obtain ⟨hstart, -, hitems⟩ := h.operand t ht
    simp only [OperandText.arguments, OperandText.results, List.mem_filterMap, List.mem_map] at ha
    obtain ⟨result, ⟨item, hitem, rfl⟩, hr⟩ := ha
    split at hr
    · rename_i b hb
      cases hr
      have hstop : w.stop = t.stop := by simp [stop, ht]
      rw [readArgument_ok_position hb, hstop]
      exact (hitems item hitem).2.mono (by omega) (Nat.le_refl _)
    · cases hr
  · simp at ha

theorem Stands.operandProblem_within (h : w.Stands text) (entry : Option Opcode) :
    ∀ q ∈ w.operandProblems entry, q.position.Within w.position.first w.stop := by
  intro q hq
  have hle := h.name.le
  unfold operandProblems at hq
  split at hq
  · rename_i t ht
    obtain ⟨hstart, hlt, hitems⟩ := h.operand t ht
    have hstop : w.stop = t.stop := by simp [stop, ht]
    rw [hstop]
    rcases List.mem_append.mp hq with hq | hq
    · rcases List.mem_append.mp hq with hq | hq
      · simp only [OperandText.results, List.mem_filterMap, List.mem_map] at hq
        obtain ⟨result, ⟨item, hitem, rfl⟩, hr⟩ := hq
        split at hr
        · cases hr
        · rename_i p hp
          cases hr
          rw [readArgument_error_position hp]
          exact (hitems item hitem).2.mono (by omega) (Nat.le_refl _)
      · split at hq
        · simp at hq
        · obtain rfl := List.mem_singleton.mp hq
          constructor
          all_goals
            simp only [OperandText.unclosed]
            omega
    · obtain ⟨op, rfl, hm⟩ := Option.bind_eq_some_iff.mp (Option.mem_toList.mp hq)
      unfold OperandText.mismatch? at hm
      split at hm
      · cases hm
        constructor
        all_goals
          dsimp only
          omega
      · cases hm
  · simp at hq

theorem Stands.call_within (h : w.Stands text) (number : Option UInt16) :
    (w.call number).position.Within w.position.first w.stop := by
  have hle := h.name.le
  have hlt := h.last_lt_stop
  constructor
  all_goals
    simp only [call]
    omega

theorem Stands.stop_le (h : w.Stands text) : w.stop ≤ (Token.word w).stop := by
  unfold Token.stop
  dsimp only
  split
  · rename_i i hi
    rw [(h.paren i hi).1]
    exact Nat.le_succ _
  · exact Nat.le_refl _

end Word

def Call.inner (c : Call) : Nat :=
  c.position.first + c.name.toList.length

/-- The name of a call stands in the text and its arguments stand behind the name, all before the
index `stop`. -/
structure Call.Opens (text : List Char) (stop : Nat) (c : Call) : Prop where
  name : Stands text c.position.first c.name.toList
  solid : ∀ d ∈ c.name.toList, isBlank d = false
  lt : c.position.first < c.inner
  le : c.inner ≤ stop
  arguments : ∀ a ∈ c.arguments, a.position.Within c.inner stop

structure Call.Laid (text : List Char) (c : Call) : Prop where
  opens : c.Opens text (c.position.last + 1)
  paren : ∀ q ∈ c.paren, c.inner ≤ q.first ∧ q.first < q.last ∧ q.last = c.position.last ∧
    text[q.first]? = some '(' ∧ text[q.last]? = some ')'

theorem Call.Opens.mono {text : List Char} {stop stop' : Nat} {c : Call} (h : c.Opens text stop)
    (hle : stop ≤ stop') : c.Opens text stop' :=
  ⟨h.name, h.solid, h.lt, h.le.trans hle,
    fun a ha => (h.arguments a ha).mono (Nat.le_refl _) hle⟩

theorem Call.Opens.update {text : List Char} {stop : Nat} {c : Call} (h : c.Opens text stop)
    (last : Nat) (paren : Option Position) (operand : Option UInt16) (outputs : Option Nat) :
    Opens text stop { c with
      position := ⟨c.position.first, last⟩, paren := paren, operand := operand,
      outputs := outputs } :=
  ⟨h.name, h.solid, h.lt, h.le, h.arguments⟩

theorem Word.Stands.opens {text : List Char} {w : Word} (h : w.Stands text)
    (number : Option UInt16) : (w.call number).Opens text w.stop := by
  have hlength := h.name.length
  have hle := h.name.le
  have hlt := h.last_lt_stop
  have hinner : (w.call number).inner = w.position.last + 1 := hlength
  refine ⟨h.name.stands, h.name.solid, ?_, ?_, ?_⟩
  · rw [hinner]
    simp only [call]
    omega
  · omega
  · rw [hinner]
    exact h.argument_within

theorem Call.badItem_position {c : Call} {params i : Nat} {items : List OperandItem} {q : Problem}
    (h : c.badItem params items i = some q) :
    q.position = c.position ∨ ∃ a ∈ c.arguments, q.position = a.position := by
  unfold badItem at h
  split at h
  · cases h
  · split at h
    · cases h
      exact .inl rfl
    · cases h
      dsimp only
      split
      · rename_i a ha
        exact .inr ⟨a, List.mem_of_getElem? ha, rfl⟩
      · exact .inl rfl

theorem Call.resolve_error_position {c : Call} {op : Opcode} {params : Nat} {nested : Bool}
    {problems : List Problem} (h : c.resolve op params nested = .error problems) :
    ∀ q ∈ problems, q.position = c.position ∨ ∃ a ∈ c.arguments, q.position = a.position := by
  unfold resolve at h
  intro q hq
  repeat' split at h
  · cases h
    obtain ⟨i, -, hi⟩ := List.mem_filterMap.mp hq
    exact badItem_position hi
  · cases h
    exact .inl (List.mem_singleton.mp hq ▸ rfl)
  · cases h
    exact .inl (List.mem_singleton.mp hq ▸ rfl)
  · cases h
    exact .inl (List.mem_singleton.mp hq ▸ rfl)
  · cases h

namespace Node

def inner : Node → Nat
  | .call head _ _ => head.inner
  | n => n.position.last + 1

/-- The node itself is in the text as it was read. -/
def Reads (text : List Char) : Node → Prop
  | .value raw _ p _ => Spelled text raw p
  | .reference name p _ => Spelled text name p
  | .call head _ _ => head.Laid text

variable {text : List Char} {lo mid hi : Nat} {n : Node} {ns ns' : List Node}

theorem Reads.bounds (h : n.Reads text) :
    n.position.first < n.inner ∧ n.inner ≤ n.position.last + 1 := by
  cases n with
  | value raw v p tags => exact ⟨Nat.lt_succ_of_le h.le, Nat.le_refl _⟩
  | reference name p tags => exact ⟨Nat.lt_succ_of_le h.le, Nat.le_refl _⟩
  | call head params tags => exact ⟨h.opens.lt, h.opens.le⟩

/-- The nodes stand one behind the other between two indices. A call has its parameters behind its
name, in the same way. -/
inductive Laid (text : List Char) : Nat → Nat → List Node → Prop
  | nil {lo hi : Nat} : lo ≤ hi → Laid text lo hi []
  | cons {lo hi : Nat} {n : Node} {rest : List Node} : lo ≤ n.position.first → n.Reads text →
      (∀ l ∈ n.tags, Spelled text l.name l.position) →
      Laid text n.inner (n.position.last + 1) n.parameters →
      Laid text (n.position.last + 1) hi rest → Laid text lo hi (n :: rest)

theorem Laid.le (h : Laid text lo hi ns) : lo ≤ hi := by
  induction h with
  | nil hle => exact hle
  | cons hle hn _ _ _ ihp ih =>
    have := hn.bounds
    omega

theorem Laid.mono {lo' hi' : Nat} (h : Laid text lo hi ns) (hlo : lo' ≤ lo) (hhi : hi ≤ hi') :
    Laid text lo' hi' ns := by
  induction h generalizing lo' with
  | nil hle => exact .nil (by omega)
  | cons hle hn ht hp _ _ ih => exact .cons (hlo.trans hle) hn ht hp (ih (Nat.le_refl _) hhi)

theorem Laid.append (h : Laid text lo mid ns) (h' : Laid text mid hi ns') :
    Laid text lo hi (ns ++ ns') := by
  induction h with
  | nil hle => exact h'.mono hle (Nat.le_refl _)
  | cons hle hn ht hp _ _ ih => exact .cons hle hn ht hp (ih h')

theorem Laid.position_within (h : Laid text lo hi ns) : ∀ n ∈ ns, n.position.Within lo hi := by
  induction h with
  | nil => simp
  | cons hle hn _ hp hrest _ ih =>
    have hbounds := hn.bounds
    have hend := hrest.le
    rw [List.forall_mem_cons]
    refine ⟨⟨hle, by omega, by omega⟩, fun m hm => (ih m hm).mono ?_ (Nat.le_refl _)⟩
    omega

theorem Laid.pairwise (h : Laid text lo hi ns) :
    ns.Pairwise fun m n => m.position.last < n.position.first := by
  induction h with
  | nil => exact .nil
  | cons _ _ _ _ hrest _ ih => exact .cons (fun n hn => (hrest.position_within n hn).ge) ih

theorem Laid.of_mem (h : Laid text lo hi ns) (hn : n ∈ ns) : Laid text lo hi [n] := by
  induction h with
  | nil => simp at hn
  | cons hle hr ht hp hrest _ ih =>
    rcases List.mem_cons.mp hn with rfl | hn
    · exact .cons hle hr ht hp (.nil hrest.le)
    · have hbounds := hr.bounds
      exact (ih hn).mono (by omega) (Nat.le_refl _)

theorem Laid.of_occurs {root : Node} (ho : n.Occurs root) (h : Laid text lo hi [root]) :
    Laid text lo hi [n] := by
  induction ho generalizing lo hi with
  | self => exact h
  | parameter hm _ ih =>
    cases h with
    | cons hle hr _ hp hrest =>
      exact (ih (hp.of_mem hm)).mono (hle.trans hr.bounds.1.le) hrest.le

end Node

namespace Token

variable {text : List Char} {mid : Nat} {t : Token}

theorem Stands.start_lt (ht : t.Stands text) (he : t.EndsAt mid) : t.start < mid := by
  cases t with
  | word w =>
    have hword : w.Stands text := ht
    have hend : mid = (Token.word w).stop := he
    have hname := hword.name.le
    have hlast := hword.last_lt_stop
    have hstop := hword.stop_le
    simp only [start]
    omega
  | operand p =>
    have hle : p.first ≤ p.last := ht
    have hend : mid = p.last + 1 := he
    simp only [start]
    omega
  | group i => exact he
  | close i => exact he ▸ Nat.lt_succ_self i
  | closeAngle i => exact he ▸ Nat.lt_succ_self i
  | comma i => exact he ▸ Nat.lt_succ_self i
  | illegal c i => exact he ▸ Nat.lt_succ_self i

theorem stop_of_isCall {w : Word} (h : w.isCall = false) :
    (Token.word w).stop = w.position.last + 1 := by
  simp only [Word.isCall, Bool.or_eq_false_iff, Option.isSome_eq_false_iff,
    Option.isNone_iff_eq_none] at h
  simp [stop, Word.stop, h.1, h.2]

theorem stop_le_of_endsAt (he : t.EndsAt mid) : t.stop ≤ mid := by
  cases t with
  | group i => exact he
  | _ => exact he.ge

end Token

namespace Frame

theorem close_problems_position (f : Frame) (i : Nat) (nested : Bool) :
    ∀ q ∈ (f.close i nested).2, q.position = ⟨f.call.position.first, i⟩ ∨
      ∃ a ∈ f.call.arguments, q.position = a.position := by
  intro q hq
  unfold close at hq
  dsimp only at hq
  repeat' split at hq
  · cases hq
  · rename_i hr
    exact Call.resolve_error_position hr q hq
  · cases hq

structure Laid (text : List Char) (f : Frame) : Prop where
  opens : f.call.Opens text f.paren
  paren : text[f.paren]? = some '('
  unclosed : f.call.paren = none

/-- Open calls before the index `hi`, the innermost first. Each of them starts behind all that is
read of the one around it, and the outermost behind the nodes. -/
def AllLaid (text : List Char) (lo : Nat) (nodes : List Node) : Nat → List Frame → Prop
  | hi, [] => Node.Laid text lo hi nodes.reverse
  | hi, f :: frames => f.Laid text ∧ Node.Laid text (f.paren + 1) hi f.parameters.reverse ∧
      AllLaid text lo nodes f.call.position.first frames

variable {text : List Char} {lo hi : Nat} {nodes : List Node} {f : Frame} {frames : List Frame}

theorem AllLaid.mono {hi' : Nat} (h : AllLaid text lo nodes hi frames) (hle : hi ≤ hi') :
    AllLaid text lo nodes hi' frames := by
  cases frames with
  | nil => exact Node.Laid.mono h (Nat.le_refl _) hle
  | cons f frames => exact ⟨h.1, h.2.1.mono (Nat.le_refl _) hle, h.2.2⟩

theorem AllLaid.first_lt (h : AllLaid text lo nodes hi (f :: frames)) :
    f.call.position.first < hi := by
  have hlt := h.1.opens.lt
  have hle := h.1.opens.le
  have hparams := h.2.1.le
  omega

theorem AllLaid.le (h : AllLaid text lo nodes hi frames) : lo ≤ hi := by
  induction frames generalizing hi with
  | nil => exact Node.Laid.le h
  | cons f frames ih => exact (ih h.2.2).trans h.first_lt.le

theorem Laid.close (h : f.Laid text) (hp : Node.Laid text (f.paren + 1) hi f.parameters.reverse)
    {i : Nat} (hi : hi ≤ i) (hc : text[i]? = some ')') (nested : Bool) :
    Node.Laid text f.call.position.first (i + 1) [(f.close i nested).1] := by
  obtain ⟨operand, outputs, hclosed⟩ := f.exists_close i nested
  have hle := h.opens.le
  have hparams := hp.le
  rw [hclosed]
  refine .cons (Nat.le_refl _) ⟨?_, ?_⟩ (by simp [Node.tags]) ?_ (.nil (Nat.le_refl _))
  · exact (h.opens.mono (show f.paren ≤ i + 1 by omega)).update i (some ⟨f.paren, i⟩) operand
      outputs
  · rintro q ⟨⟩
    exact ⟨hle, by dsimp only; omega, rfl, h.paren, hc⟩
  · exact hp.mono (Nat.le_succ_of_le hle) (Nat.le_succ_of_le hi)

theorem Laid.cut (h : f.Laid text)
    (hp : Node.Laid text (f.paren + 1) hi f.parameters.reverse) :
    Node.Laid text f.call.position.first hi [f.cut hi] := by
  have hle := h.opens.le
  have hparams := hp.le
  have hlast : hi - 1 + 1 = hi := by omega
  refine .cons (Nat.le_refl _) ⟨?_, ?_⟩ (by simp [Node.tags, Frame.cut]) ?_ (.nil ?_)
  · exact (h.opens.mono (show f.paren ≤ hi - 1 + 1 by omega)).update (hi - 1) _ _ _
  · simp [h.unclosed]
  · simp only [Node.position, Frame.cut, hlast]
    exact hp.mono (Nat.le_succ_of_le hle) (Nat.le_refl _)
  · simp only [Node.position, Frame.cut, hlast]
    exact Nat.le_refl _

end Frame

namespace Reading

/-- What is read lies between two indices. -/
def Laid (text : List Char) (lo hi : Nat) (r : Reading) : Prop :=
  Frame.AllLaid text lo r.nodes hi r.frames

variable {text : List Char} {lo mid hi : Nat} {r r' : Reading} {table : Table} {t : Token}

theorem Laid.keeps (h : r.Laid text lo hi) (hk : r.Keeps r') : r'.Laid text lo hi := by
  unfold Laid
  rw [hk.1, hk.2]
  exact h

theorem Laid.push (h : r.Laid text lo mid) {n : Node} (hn : Node.Laid text mid hi [n]) :
    (r.push n).Laid text lo hi := by
  unfold Laid at h ⊢
  unfold Reading.push
  split
  · rename_i hf
    rw [hf] at h
    simp only [hf, Frame.AllLaid, List.reverse_cons]
    exact Node.Laid.append h hn
  · rename_i f frames hf
    rw [hf] at h
    refine ⟨⟨h.1.opens, h.1.paren, h.1.unclosed⟩, ?_, h.2.2⟩
    rw [List.reverse_cons]
    exact h.2.1.append hn

theorem Laid.act (h : r.Laid text lo mid) (ha : Act table r t r') (hle : mid ≤ t.start)
    (ht : t.Stands text) (he : t.EndsAt hi) : r'.Laid text lo hi := by
  have hlt := ht.start_lt he
  have hstop := Token.stop_le_of_endsAt he
  cases ha with
  | keep hk _ => exact (h.keeps hk).mono (by omega)
  | @value w r' v _ hk =>
    have hword : w.Stands text := ht
    have hend := hword.last_lt_stop.trans_le (hword.stop_le.trans hstop)
    exact (h.keeps hk).push
      (.cons hle hword.name (by simp [Node.tags]) (.nil (Nat.le_refl _)) (.nil hend))
  | @reference w r' _ hk =>
    have hword : w.Stands text := ht
    have hend := hword.last_lt_stop.trans_le (hword.stop_le.trans hstop)
    exact (h.keeps hk).push
      (.cons hle hword.name (by simp [Node.tags]) (.nil (Nat.le_refl _)) (.nil hend))
  | @plain w r' number hw hk =>
    have hword : w.Stands text := ht
    have hlast : (w.call number).position.last + 1 = w.stop := by
      have hpos := hword.last_lt_stop
      simp only [Word.call]
      omega
    have hopens := hword.opens number
    rw [← hlast] at hopens
    refine (h.keeps hk).push (.cons hle ⟨hopens, by simp [Word.call]⟩ (by simp [Node.tags])
      (.nil hopens.le) (.nil ?_))
    simp only [Node.position, hlast]
    exact hword.stop_le.trans hstop
  | @opens w r' found paren hw _ hf hn =>
    have hword : w.Stands text := ht
    obtain ⟨hparen, hchar⟩ := hword.paren paren hw
    have hend : (Token.word w).stop = paren + 1 := by simp [Token.stop, hw]
    have hopens := hword.opens (found.map (·.1))
    rw [← hparen] at hopens
    unfold Laid
    rw [hf, hn]
    exact ⟨⟨hopens, hchar, rfl⟩, .nil (hend ▸ hstop), h.mono hle⟩
  | @closes r' f frames i hf hk =>
    have hchar : text[i]? = some ')' := ht
    have hend : i + 1 ≤ hi := hstop
    unfold Laid at h
    rw [hf] at h
    have hrest : Laid text lo f.call.position.first { r with frames := frames } := h.2.2
    have hnode := (h.1.close h.2.1 hle hchar (!frames.isEmpty)).mono (Nat.le_refl _) hend
    exact (hrest.keeps hk).push hnode

theorem Laid.foldl_step {ctx : Context} {ts : List Token} (h : r.Laid text lo mid)
    (hc : Token.Chain text mid hi ts) : (ts.foldl (step ctx) r).Laid text lo hi := by
  induction hc generalizing r with
  | nil hle _ => exact h.mono hle
  | cons hle _ ht he _ ih => exact ih (h.act (step_act r _) hle ht he)

theorem laid_finishFrames {frames : List Frame} {inner : Option Node}
    (hf : Frame.AllLaid text lo r.nodes mid frames) (hn : Node.Laid text mid hi inner.toList) :
    Node.Laid text lo hi (finishFrames hi r inner frames).nodes.reverse := by
  have hinner : inner.toList.reverse = inner.toList := by cases inner <;> rfl
  induction frames generalizing r inner mid with
  | nil =>
    rw [finishFrames, List.reverse_append, hinner]
    exact Node.Laid.append hf hn
  | cons f frames ih =>
    have hparams := hf.2.1.append hn
    rw [← hinner, ← List.reverse_append] at hparams
    have hframe : Frame.Laid text { f with parameters := inner.toList ++ f.parameters } :=
      ⟨hf.1.opens, hf.1.paren, hf.1.unclosed⟩
    exact ih (r := r.report _) hf.2.2 (hframe.cut hparams) rfl

theorem laid_fold (ctx : Context) {right : Segment} (h : Stands text right.start right.chars) :
    Laid text right.start right.stop ((Token.scan right).foldl (step ctx) {}) := by
  have hempty : Laid text right.start right.start {} := .nil (Nat.le_refl _)
  exact hempty.foldl_step (Token.chain_scan h)

theorem laid_read (ctx : Context) {right : Segment} (h : Stands text right.start right.chars) :
    Node.Laid text right.start right.stop (read ctx right).nodes.reverse := by
  have hnone : Node.Laid text right.stop right.stop (none : Option Node).toList :=
    .nil (Nat.le_refl _)
  exact laid_finishFrames (laid_fold ctx h) hnone

def ReportsIn (lo hi : Nat) (r : Reading) : Prop :=
  ∀ q ∈ r.problems, q.position.Within lo hi

theorem ReportsIn.mono {hi' : Nat} (h : r.ReportsIn lo hi) (hle : hi ≤ hi') :
    r.ReportsIn lo hi' :=
  fun q hq => (h q hq).mono (Nat.le_refl _) hle

theorem ReportsIn.report (h : r.ReportsIn lo hi) {p : Problem} (hp : p.position.Within lo hi) :
    (r.report p).ReportsIn lo hi :=
  List.forall_mem_cons.mpr ⟨hp, h⟩

theorem ReportsIn.reportAll (h : r.ReportsIn lo hi) {ps : List Problem}
    (hp : ∀ p ∈ ps, p.position.Within lo hi) : (r.reportAll ps).ReportsIn lo hi :=
  List.forall_mem_append.mpr ⟨fun p hm => hp p (List.mem_reverse.mp hm), h⟩

theorem ReportsIn.push (h : r.ReportsIn lo hi) (n : Node) : (r.push n).ReportsIn lo hi := by
  unfold ReportsIn
  rw [push_problems]
  exact h

section

variable {w : Word} (hw : w.Stands text) (hlo : lo ≤ w.position.first)
  (hhi : (Token.word w).stop ≤ hi)

include hw hlo hhi

theorem word_within : w.position.Within lo hi :=
  ⟨hlo, hw.name.le, hw.last_lt_stop.trans_le (hw.stop_le.trans hhi)⟩

theorem ReportsIn.callWord (h : r.ReportsIn lo hi) (found : Option (UInt16 × Opcode)) :
    (r.callWord w found).ReportsIn lo hi := by
  have hstop := hw.stop_le.trans hhi
  have hcall := (hw.call_within (found.map (·.1))).mono hlo hstop
  have hall := h.reportAll fun q hq =>
    (hw.operandProblem_within (found.map (·.2)) q hq).mono hlo hstop
  unfold Reading.callWord
  dsimp only
  split
  · split
    · exact hall.report hcall
    · exact hall
  · apply ReportsIn.push
    split
    · exact hall
    · split <;> exact hall.report hcall

theorem ReportsIn.opcodeWord (h : r.ReportsIn lo hi) (ctx : Context) :
    (r.opcodeWord ctx w).ReportsIn lo hi := by
  have hword := word_within hw hlo hhi
  unfold Reading.opcodeWord
  split
  · exact h.callWord hw hlo hhi _
  · split
    · exact (h.report (p := ⟨_, _, _⟩) hword).callWord hw hlo hhi none
    · refine ReportsIn.report (r := r.drop) h ?_
      split <;> exact hword

theorem ReportsIn.plainWord? (h : r.ReportsIn lo hi) {ctx : Context}
    (hr : plainWord? ctx r w = some r') : r'.ReportsIn lo hi := by
  have hword := word_within hw hlo hhi
  unfold Reading.plainWord? at hr
  repeat' split at hr
  · cases hr
    exact h.push _
  · cases hr
    exact (h.report hword).push _
  · cases hr
    exact h.push _
  · rename_i p hp
    cases hr
    refine (h.report ?_).push _
    rw [readValue_error_position hp]
    exact hword
  · cases hr

theorem ReportsIn.word (h : r.ReportsIn lo hi) (ctx : Context) :
    (word ctx r w).ReportsIn lo hi := by
  unfold Reading.word
  split
  · exact h.opcodeWord hw hlo hhi ctx
  · split
    · rename_i r' hr
      exact h.plainWord? hw hlo hhi hr
    · exact h.opcodeWord hw hlo hhi ctx

end

theorem ReportsIn.close (h : r.ReportsIn lo hi) (hl : r.Laid text lo mid) {i : Nat} (hle : mid ≤ i)
    (hhi : i < hi) : (r.close i).ReportsIn lo hi := by
  unfold Reading.close
  split
  · exact h.report (Position.within_point (hl.le.trans hle) hhi)
  · rename_i f frames hf
    unfold Laid at hl
    rw [hf] at hl
    have hfirst := hl.2.2.le
    have hlt := hl.first_lt
    have hparams := hl.2.1.le
    have hrest : ReportsIn lo hi { r with frames := frames } := h
    refine (hrest.reportAll fun q hq => ?_).push _
    rcases f.close_problems_position i (!frames.isEmpty) q hq with hq | ⟨a, ha, hq⟩
    · rw [hq]
      exact ⟨hfirst, by dsimp only; omega, hhi⟩
    · rw [hq]
      exact (hl.1.opens.arguments a ha).mono (hfirst.trans hl.1.opens.lt.le) (by omega)

theorem ReportsIn.step (h : r.ReportsIn lo mid) (hl : r.Laid text lo mid) (hle : mid ≤ t.start)
    (ht : t.Stands text) (he : t.EndsAt hi) (ctx : Context) : (step ctx r t).ReportsIn lo hi := by
  have hlo := hl.le.trans hle
  have hlt := ht.start_lt he
  have hstop := Token.stop_le_of_endsAt he
  have hbefore := h.mono (hle.trans hlt.le)
  cases t with
  | word w => exact hbefore.word ht hlo hstop ctx
  | close i => exact hbefore.close hl hle hlt
  | group i => exact ReportsIn.report (r := r.drop) hbefore (Position.within_point hlo hlt)
  | operand p => exact hbefore.report ⟨hlo, ht, hstop⟩
  | closeAngle i => exact hbefore.report (Position.within_point hlo hlt)
  | comma i => exact hbefore.report (Position.within_point hlo hlt)
  | illegal c i => exact hbefore.report (Position.within_point hlo hlt)

theorem ReportsIn.foldl_step {ctx : Context} {ts : List Token} (h : r.ReportsIn lo mid)
    (hl : r.Laid text lo mid) (hc : Token.Chain text mid hi ts) :
    (ts.foldl (Reading.step ctx) r).ReportsIn lo hi := by
  induction hc generalizing r with
  | nil hle _ => exact h.mono hle
  | cons hle _ ht he _ ih => exact ih (h.step hl hle ht he ctx) (hl.act (step_act r _) hle ht he)

theorem ReportsIn.finishFrames {stop : Nat} {frames : List Frame} {nodes : List Node}
    (h : r.ReportsIn lo hi) (hf : Frame.AllLaid text lo nodes mid frames) (hle : mid ≤ hi)
    (inner : Option Node) : (finishFrames stop r inner frames).ReportsIn lo hi := by
  induction frames generalizing r inner mid with
  | nil => exact h
  | cons f frames ih =>
    have hlo := hf.2.2.le
    have hlt := hf.1.opens.lt
    have hparen := hf.1.opens.le
    have hparams := hf.2.1.le
    have hfirst := hf.first_lt
    exact ih (h.report (Position.within_point (by dsimp only; omega) (by dsimp only; omega)))
      hf.2.2 (by omega) _

theorem reportsIn_read (ctx : Context) {right : Segment}
    (h : Stands text right.start right.chars) :
    (read ctx right).ReportsIn right.start right.stop := by
  have hempty : Laid text right.start right.start {} := .nil (Nat.le_refl _)
  have hnone : ReportsIn right.start right.start {} := by simp [ReportsIn]
  exact (hnone.foldl_step hempty (Token.chain_scan h)).finishFrames (laid_fold ctx h)
    (Nat.le_refl _) none

end Reading

end Wordcode
