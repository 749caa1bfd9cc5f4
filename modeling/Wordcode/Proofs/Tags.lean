import Wordcode.Proofs.Bare
import Wordcode.Proofs.Naming
import Wordcode.Proofs.Scripts

namespace Wordcode

namespace Node

/-- Nothing in the node has names on its outputs. -/
inductive Fresh : Node → Prop
  | value {raw : String} {v : Option Nat} {p : Position} : Fresh (.value raw v p [])
  | reference {name : String} {p : Position} : Fresh (.reference name p [])
  | call {head : Call} {params : List Node} : (∀ p ∈ params, Fresh p) → Fresh (.call head params [])

/-- Only the node itself may have names on its outputs. -/
def Tidy : Node → Prop
  | .call _ params _ => ∀ p ∈ params, p.Fresh
  | _ => True

theorem Fresh.tags_eq_nil {n : Node} (h : n.Fresh) : n.tags = [] := by
  cases h <;> rfl

theorem Fresh.tidy {n : Node} (h : n.Fresh) : n.Tidy := by
  cases h with
  | value => trivial
  | reference => trivial
  | call hp => exact hp

theorem Tidy.attach {n : Node} (h : n.Tidy) (labels : List Label) : (n.attach labels).Tidy := by
  cases n <;> exact h

def untag : Node → Node
  | .value raw v p _ => .value raw v p []
  | .reference name p _ => .reference name p []
  | .call head params _ => .call head params []

theorem Fresh.untag_eq {n : Node} (h : n.Fresh) : n.untag = n := by
  cases h <;> rfl

theorem outputCount?_untag (n : Node) : n.untag.outputCount? = n.outputCount? := by
  cases n <;> rfl

theorem bare_eq_retag (n : Node) : n.bare = n.untag.bare.retag (n.tags.map Label.bare) := by
  cases n <;> rfl

end Node

namespace Reading

structure Fresh (r : Reading) : Prop where
  nodes : ∀ n ∈ r.nodes, n.Fresh
  frames : ∀ f ∈ r.frames, ∀ p ∈ f.parameters, p.Fresh

variable {r : Reading}

theorem Fresh.of_keeps (h : r.Fresh) {r' : Reading} (hk : r.Keeps r') : r'.Fresh := by
  refine ⟨?_, ?_⟩
  · rw [hk.2]
    exact h.nodes
  · rw [hk.1]
    exact h.frames

theorem Fresh.push (h : r.Fresh) {n : Node} (hn : n.Fresh) : (r.push n).Fresh := by
  unfold Reading.push
  split
  · exact ⟨List.forall_mem_cons.mpr ⟨hn, h.nodes⟩, h.frames⟩
  · rename_i f frames hf
    have hframes := h.frames
    rw [hf, List.forall_mem_cons] at hframes
    refine ⟨h.nodes, List.forall_mem_cons.mpr ⟨?_, hframes.2⟩⟩
    exact List.forall_mem_cons.mpr ⟨hn, hframes.1⟩

theorem Fresh.act {table : Table} {t : Token} {r' : Reading} (h : r.Fresh)
    (ha : Act table r t r') : r'.Fresh := by
  cases ha with
  | keep hk _ => exact h.of_keeps hk
  | value _ hk => exact (h.of_keeps hk).push .value
  | reference _ hk => exact (h.of_keeps hk).push .reference
  | plain _ hk => exact (h.of_keeps hk).push (.call (by simp))
  | opens _ _ hf hn =>
    refine ⟨by rw [hn]; exact h.nodes, ?_⟩
    rw [hf, List.forall_mem_cons]
    exact ⟨by simp, h.frames⟩
  | @closes r' f frames i hf hk =>
    have hall := h.frames
    rw [hf, List.forall_mem_cons] at hall
    have hrest : Reading.Fresh { r with frames := frames } := ⟨h.nodes, hall.2⟩
    obtain ⟨operand, outputs, hc⟩ := f.exists_close i (!frames.isEmpty)
    rw [hc]
    exact (hrest.of_keeps hk).push (.call (by simpa using hall.1))

theorem fresh_read {ctx : Context} {right : Segment} (hp : (read ctx right).problems = []) :
    ∀ n ∈ (read ctx right).nodes, n.Fresh := by
  have hf : Fresh ((Token.scan right).foldl (step ctx) {}) :=
    foldl_step_induction (fun _ _ _ h => h.act) ⟨by simp, by simp⟩ _
  rw [read_eq] at hp ⊢
  cases hframes : ((Token.scan right).foldl (step ctx) {}).frames with
  | nil => exact hf.nodes
  | cons f frames =>
    rw [hframes] at hp
    exact absurd hp (finishFrames_reports _ _ _ _ _)

end Reading

namespace Binding

theorem counts_named {labels : List Label} {nodes : List (Node × Nat)}
    (hcounts : ∀ p ∈ nodes, p.1.outputCount? = some p.2)
    (hsum : (nodes.map (·.2)).sum ≤ labels.length) :
    ∀ n ∈ named labels nodes, n.outputCount? = some n.tags.length := by
  induction nodes generalizing labels with
  | nil => simp [named]
  | cons p nodes ih =>
    rw [List.forall_mem_cons] at hcounts
    rw [List.map_cons, List.sum_cons] at hsum
    rw [named, List.forall_mem_cons]
    refine ⟨?_, ih hcounts.2 (by rw [List.length_drop]; omega)⟩
    rw [Node.outputCount?_retag, Node.tags_retag, hcounts.1, List.length_take]
    congr 1
    omega

theorem bind_tags {labels : List Label} {nodes : List Node} {counts : List Nat}
    (h : nodes.mapM Node.outputCount? = some counts) (hsum : counts.sum = labels.length)
    (hfresh : ∀ n ∈ nodes, n.tags = []) :
    (bind labels nodes).1.flatMap (·.tags) = labels ∧
      ∀ n ∈ (bind labels nodes).1, n.outputCount? = some n.tags.length := by
  have hsnd := (map_zip_counts h).2
  obtain ⟨-, hcounts⟩ := List.forall₂_iff_zip.mp (mapM_eq_some_iff.mp h)
  rw [bind_eq h hfresh]
  refine ⟨?_, counts_named (fun p hp => hcounts hp) (by rw [hsnd, hsum])⟩
  rw [tags_named, hsnd, hsum, List.take_length]

end Binding

theorem Call.bare_eq {c c' : Call} (hname : c.name = c'.name) (hopcode : c.opcode = c'.opcode)
    (hoperand : c.operand = c'.operand) (houtputs : c.outputs = c'.outputs)
    (harguments : c.arguments.map (·.value) = c'.arguments.map (·.value)) : c.bare = c'.bare := by
  have hbare : ∀ as : List Argument,
      as.map Argument.bare = (as.map (·.value)).map fun v => ⟨v, default⟩ := by
    simp [Argument.bare]
  simp only [Call.bare, hname, hopcode, hoperand, houtputs, hbare, harguments]

namespace Node

theorem terms_eq_nil {ns : List Node} (h : terms ns = []) : ns = [] := by
  simpa [terms_eq_map] using h

theorem map_untag_of_fresh {ns : List Node} (h : ∀ n ∈ ns, n.Fresh) : ns.map untag = ns := by
  rw [List.map_congr_left fun n hn => (h n hn).untag_eq, List.map_id']

variable {table : Table} {scope scope' : Scope} {nested nested' : Bool}

theorem Typed.map_untag_eq {ns ns' : List Node} (h : Typed table scope nested ns)
    (h' : Typed table scope' nested' ns') (ht : terms ns = terms ns') (hns : ∀ n ∈ ns, n.Tidy)
    (hns' : ∀ n ∈ ns', n.Tidy) : ns.map (bare ∘ untag) = ns'.map (bare ∘ untag) := by
  induction h generalizing nested' ns' with
  | nil =>
    rw [terms_eq_nil ht.symm]
  | @value nested raw v p tags rest hv _ ih =>
    obtain ⟨n', rest', rfl, hn', hrest⟩ := terms_eq_cons ht.symm
    obtain ⟨v', p', tags', rfl⟩ := term_eq_literal hn'
    rw [List.forall_mem_cons] at hns hns'
    cases h' with
    | value hv' h' =>
      rw [hv, Except.ok.injEq] at hv'
      rw [List.map_cons, List.map_cons, ih h' hrest.symm hns.2 hns'.2, hv']
      rfl
  | @reference nested name p tags rest _ _ ih =>
    obtain ⟨n', rest', rfl, hn', hrest⟩ := terms_eq_cons ht.symm
    obtain ⟨p', tags', rfl⟩ := term_eq_reference hn'
    rw [List.forall_mem_cons] at hns hns'
    rw [List.map_cons, List.map_cons, ih h'.tail hrest.symm hns.2 hns'.2]
    rfl
  | @call nested head params tags rest number op r hl ho hr ha _ _ _ ihp ih =>
    obtain ⟨n', rest', rfl, hn', hrest⟩ := terms_eq_cons ht.symm
    obtain ⟨head', params', tags', rfl, hname, hargs, hterms⟩ := term_eq_call hn'
    rw [List.forall_mem_cons] at hns hns'
    cases h' with
    | @call _ _ _ _ _ number' op' r' hl' ho' hr' ha' _ hp' h' =>
      rw [hname, hl, Option.some.injEq, Prod.mk.injEq] at hl'
      obtain ⟨rfl, rfl⟩ := hl'
      have hlen : params'.length = params.length := by
        rw [← length_terms, hterms, length_terms]
      have hpacks := ha'.packs
      rw [hargs, hlen, ha.packs, Except.ok.injEq] at hpacks
      have hgives := ha'.gives
      rw [← hpacks, ha.gives, Option.some.injEq] at hgives
      have hhead : head.bare = head'.bare := by
        refine Call.bare_eq hname.symm (by rw [ho, ho']) ?_ ?_ hargs.symm
        · rw [hr.operand, hr'.operand, hpacks]
        · rw [hr.outputs, hr'.outputs, hgives]
      have hparams := ihp hp' hterms.symm (fun p hp => (hns.1 p hp).tidy)
        (fun p hp => (hns'.1 p hp).tidy)
      rw [← List.map_map, ← List.map_map, map_untag_of_fresh hns.1,
        map_untag_of_fresh hns'.1] at hparams
      rw [List.map_cons, List.map_cons, ih h' hrest.symm hns.2 hns'.2]
      simp [untag, bare, hhead, hparams]

theorem map_bare_eq {ns ns' : List Node} (h : ns.map (bare ∘ untag) = ns'.map (bare ∘ untag))
    (hcounts : ∀ n ∈ ns, n.outputCount? = some n.tags.length)
    (hcounts' : ∀ n ∈ ns', n.outputCount? = some n.tags.length)
    (htags : (ns.flatMap (·.tags)).map Label.bare = (ns'.flatMap (·.tags)).map Label.bare) :
    ns.map bare = ns'.map bare := by
  induction ns generalizing ns' with
  | nil => rw [List.map_eq_nil_iff.mp h.symm]
  | cons n ns ih =>
    obtain ⟨n', ns', rfl, hn, hns⟩ := List.map_eq_cons_iff.mp h.symm
    rw [List.forall_mem_cons] at hcounts hcounts'
    simp only [Function.comp_apply] at hn
    have hlen : n.tags.length = n'.tags.length := by
      have hc := congrArg outputCount? hn
      rw [outputCount?_bare, outputCount?_bare, outputCount?_untag, outputCount?_untag, hcounts.1,
        hcounts'.1, Option.some.injEq] at hc
      exact hc.symm
    simp only [List.flatMap_cons, List.map_append] at htags
    obtain ⟨hhead, htail⟩ := List.append_inj htags (by simpa using hlen)
    rw [List.map_cons, List.map_cons, ih hns.symm hcounts.2 hcounts'.2 htail, n.bare_eq_retag,
      n'.bare_eq_retag, hn, hhead]

end Node

/-- A statement with resolved nodes and its names on their outputs, from the first to the last. -/
structure Statement.Settled (table : Table) (s : Statement) : Prop where
  typed : ∃ scope, Node.Typed table scope false s.nodes
  tidy : ∀ n ∈ s.nodes, n.Tidy
  counted : ∀ n ∈ s.nodes, n.outputCount? = some n.tags.length
  tagged : s.nodes.flatMap (·.tags) = s.labels

namespace Statement

variable {table : Table}

theorem ofSides_settled {scope : Scope} {position : Position} {left right : Segment}
    (hp : (ofSides table scope position left right).2 = []) :
    (ofSides table scope position left right).1.Settled table := by
  unfold ofSides at hp ⊢
  simp only [List.append_eq_nil_iff, List.reverse_eq_nil_iff] at hp ⊢
  obtain ⟨⟨⟨-, hr⟩, hu⟩, -⟩ := hp
  obtain ⟨hk, ht⟩ := Reading.read_sound hr
  have hfresh := Reading.fresh_read hr
  simp only [hk, Bool.false_eq_true, if_false] at hu ⊢
  generalize (Reading.read _ right).nodes = nodes at ht hfresh hu ⊢
  have hc := ht.reverse.mapM_outputCount?
  have hsum := (Binding.bind_problems_eq_nil_iff hc).mp hu
  have htag := Binding.bind_nodes left.labels nodes.reverse
  obtain ⟨htags, hcounts⟩ := Binding.bind_tags hc hsum
    fun n hn => (hfresh n (List.mem_reverse.mp hn)).tags_eq_nil
  refine ⟨⟨scope, ht.reverse.of_tagged htag⟩, ?_, hcounts, htags⟩
  intro n hn
  obtain ⟨m, hm, labels, rfl⟩ := forall₂_mem_right htag hn
  exact (hfresh m (List.mem_reverse.mp hm)).tidy.attach labels

theorem bare_eq {s s' : Statement} (h : s.Settled table) (h' : s'.Settled table)
    (hc : s.clause = s'.clause) : s.bare = s'.bare := by
  obtain ⟨scope, ht⟩ := h.typed
  obtain ⟨scope', ht'⟩ := h'.typed
  simp only [clause, Clause.mk.injEq] at hc
  have hlabels : s.labels.map Label.bare = s'.labels.map Label.bare := by
    have hbare : ∀ ls : List Label, ls.map Label.bare = (ls.map (·.name)).map (⟨·, default⟩) := by
      simp [Label.bare]
    rw [hbare, hbare, hc.1]
  have hnodes := Node.map_bare_eq (ht.map_untag_eq ht' hc.2 h.tidy h'.tidy) h.counted h'.counted
    (by rw [h.tagged, h'.tagged, hlabels])
  simp only [bare, hlabels, hnodes]

end Statement

theorem map_eq_of_map_eq {α β γ : Type} {f : α → β} {g : α → γ} {xs ys : List α}
    (h : ∀ x ∈ xs, ∀ y ∈ ys, f x = f y → g x = g y) (hf : xs.map f = ys.map f) :
    xs.map g = ys.map g := by
  induction xs generalizing ys with
  | nil => rw [List.map_eq_nil_iff.mp hf.symm]
  | cons x xs ih =>
    obtain ⟨y, ys, rfl, hy, hys⟩ := List.map_eq_cons_iff.mp hf.symm
    have htail := ih (fun x hx y hy => h x (by simp [hx]) y (by simp [hy])) hys.symm
    rw [List.map_cons, List.map_cons, htail, h x (by simp) y (by simp) hy.symm]

namespace Document

variable {table : Table}

theorem read_settled {text : List Char} (h : (read table text).problems = []) :
    ∀ source ∈ (read table text).sources, ∀ s ∈ source.statements, s.Settled table := by
  intro source hsource s hs
  obtain ⟨scope, -, -, segment, -, left, right, -, -, rfl, hp⟩ := exists_ofSides hsource hs
  rw [h, List.subset_nil] at hp
  exact Statement.ofSides_settled hp

theorem map_bare_eq {d d' : Document} (h : ∀ s ∈ d.sources, ∀ st ∈ s.statements, st.Settled table)
    (h' : ∀ s ∈ d'.sources, ∀ st ∈ s.statements, st.Settled table) (hd : d.script = d'.script) :
    d.sources.map Source.bare = d'.sources.map Source.bare := by
  refine map_eq_of_map_eq ?_ hd
  intro source hm source' hm' hs
  have hst := map_eq_of_map_eq (g := Statement.bare)
    (fun s hs s' hs' => Statement.bare_eq (h source hm s hs) (h' source' hm' s' hs')) hs
  rw [Source.bare, Source.bare, hst]

end Document

end Wordcode
