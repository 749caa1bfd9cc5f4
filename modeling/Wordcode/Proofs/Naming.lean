import Wordcode.Proofs.Balance

namespace Wordcode

namespace Node

def retag (labels : List Label) : Node → Node
  | .value raw v p _ => .value raw v p labels
  | .reference name p _ => .reference name p labels
  | .call head parameters _ => .call head parameters labels

@[simp]
theorem tags_retag (n : Node) (labels : List Label) : (n.retag labels).tags = labels := by
  cases n <;> rfl

@[simp]
theorem outputCount?_retag (n : Node) (labels : List Label) :
    (n.retag labels).outputCount? = n.outputCount? := by
  cases n <;> rfl

theorem latest_nil {labels : List Label} (h : labels.length ≤ 1) : latest [] labels = labels := by
  cases labels with
  | nil => rfl
  | cons l labels =>
    obtain rfl : labels = [] := by simpa using h
    rfl

theorem attach_eq_retag {n : Node} {labels : List Label} {k : Nat} (hc : n.outputCount? = some k)
    (ht : n.tags = []) (hl : labels.length ≤ k) : n.attach labels = n.retag labels := by
  cases n with
  | value raw v p tags =>
    obtain rfl : tags = [] := ht
    obtain rfl : 1 = k := by simpa [outputCount?] using hc
    simp only [attach, retag, latest_nil hl]
  | reference name p tags =>
    obtain rfl : tags = [] := ht
    obtain rfl : 1 = k := by simpa [outputCount?] using hc
    simp only [attach, retag, latest_nil hl]
  | call head params tags =>
    obtain rfl : tags = [] := ht
    rfl

end Node

namespace Binding

/-- Nodes with their parts of the names: each takes as many as it has outputs, as long as there
are any. -/
def named : List Label → List (Node × Nat) → List Node
  | _, [] => []
  | labels, p :: nodes => p.1.retag (labels.take p.2) :: named (labels.drop p.2) nodes

def outputs (nodes : List (Node × Nat)) : List Node :=
  nodes.flatMap fun p => List.replicate p.2 p.1

theorem length_outputs (nodes : List (Node × Nat)) :
    (outputs nodes).length = (nodes.map (·.2)).sum := by
  simp [outputs, List.length_flatMap]

theorem length_named (labels : List Label) (nodes : List (Node × Nat)) :
    (named labels nodes).length = nodes.length := by
  induction nodes generalizing labels with
  | nil => rfl
  | cons p nodes ih => rw [named, List.length_cons, List.length_cons, ih]

theorem tags_named (labels : List Label) (nodes : List (Node × Nat)) :
    (named labels nodes).flatMap (·.tags) = labels.take (nodes.map (·.2)).sum := by
  induction nodes generalizing labels with
  | nil => simp [named]
  | cons p nodes ih =>
    rw [named, List.flatMap_cons, Node.tags_retag, ih, List.map_cons, List.sum_cons, List.take_add]

theorem getElem?_named {labels : List Label} {nodes : List (Node × Nat)} {i : Nat} {n : Node}
    {k : Nat} (h : nodes[i]? = some (n, k)) :
    (named labels nodes)[i]? =
      some (n.retag ((labels.drop ((nodes.map (·.2)).take i).sum).take k)) := by
  induction nodes generalizing labels i with
  | nil => simp at h
  | cons p nodes ih =>
    cases i with
    | zero =>
      rw [List.getElem?_cons_zero, Option.some.injEq] at h
      subst h
      simp [named]
    | succ i =>
      rw [List.getElem?_cons_succ] at h
      rw [named, List.getElem?_cons_succ, ih h]
      simp [List.drop_drop]

theorem step_eq (b : Binding) {n : Node} {k : Nat} (hc : n.outputCount? = some k)
    (ht : n.tags = []) :
    b.step n k = ⟨b.labels.drop k, n.retag (b.labels.take k) :: b.nodes,
      ((List.replicate k n).drop b.labels.length).map unnamed ++ b.problems⟩ := by
  have hl : (b.labels.take k).length ≤ k := by simp
  rw [step, Node.attach_eq_retag hc ht hl]
  simp

theorem bindAll_eq (b : Binding) (nodes : List (Node × Nat))
    (h : ∀ p ∈ nodes, p.1.outputCount? = some p.2 ∧ p.1.tags = []) :
    b.bindAll nodes = ⟨b.labels.drop (nodes.map (·.2)).sum,
      (named b.labels nodes).reverse ++ b.nodes,
      (((outputs nodes).drop b.labels.length).map unnamed).reverse ++ b.problems⟩ := by
  induction nodes generalizing b with
  | nil => simp [bindAll, named, outputs]
  | cons p nodes ih =>
    rw [List.forall_mem_cons] at h
    have hstep := b.step_eq h.1.1 h.1.2
    have hrest := ih (b.step p.1 p.2) h.2
    have houtputs : outputs (p :: nodes) = List.replicate p.2 p.1 ++ outputs nodes := rfl
    rw [hstep] at hrest
    change (b.step p.1 p.2).bindAll nodes = _
    rw [hstep, hrest, houtputs, List.drop_append]
    simp [named, List.drop_drop]

theorem bind_of_unknown {labels : List Label} {nodes : List Node} {n : Node} (hn : n ∈ nodes)
    (hc : n.outputCount? = none) : bind labels nodes = (nodes, []) := by
  cases h : nodes.mapM Node.outputCount? with
  | none => rw [bind, h]
  | some counts =>
    obtain ⟨k, -, hk⟩ := forall₂_mem_right (mapM_eq_some_iff.mp h).flip hn
    rw [hc] at hk
    cases hk

theorem bind_eq {labels : List Label} {nodes : List Node} {counts : List Nat}
    (h : nodes.mapM Node.outputCount? = some counts) (hfresh : ∀ n ∈ nodes, n.tags = []) :
    bind labels nodes = (named labels (nodes.zip counts),
      ((outputs (nodes.zip counts)).drop labels.length).map unnamed ++
        (labels.drop counts.sum).map unmatched) := by
  obtain ⟨-, hcounts⟩ := List.forall₂_iff_zip.mp (mapM_eq_some_iff.mp h)
  have hall := bindAll_eq { labels := labels } (nodes.zip counts)
    fun p hp => ⟨hcounts hp, hfresh p.1 (List.of_mem_zip hp).1⟩
  rw [(map_zip_counts h).2] at hall
  rw [bind_of_counts h, hall]
  simp

theorem mapM_of_map_eq {nodes : List Node} {counts : List Nat}
    (h : nodes.map Node.outputCount? = counts.map some) :
    nodes.mapM Node.outputCount? = some counts := by
  rw [mapM_eq_some_iff, ← List.forall₂_map_right_iff (R := fun n c => Node.outputCount? n = c),
    ← h, List.forall₂_map_right_iff]
  exact List.forall₂_same.mpr fun _ _ => rfl

/-- Names go to outputs by their order. If the number of outputs of some node is not known nothing
happens. Otherwise each node gets the names behind those of the nodes before it, as many as it has
outputs, as long as there are any, and nothing else of it changes. The outputs behind the last name
are reported at their nodes, and then the names behind the last output at their own places. -/
theorem bind_positional (labels : List Label) (nodes : List Node)
    (hfresh : ∀ n ∈ nodes, n.tags = []) :
    ((∃ n ∈ nodes, n.outputCount? = none) → bind labels nodes = (nodes, [])) ∧
      ∀ counts : List Nat, nodes.map Node.outputCount? = counts.map some →
        (bind labels nodes).1.flatMap (·.tags) =
            labels.take (min labels.length counts.sum) ∧
          (bind labels nodes).1.length = nodes.length ∧
          (∀ (i : Nat) (n : Node) (k : Nat), nodes[i]? = some n → counts[i]? = some k →
            (bind labels nodes).1[i]? =
              some (n.retag ((labels.drop (counts.take i).sum).take k))) ∧
          ∃ lhs rhs, (bind labels nodes).2 = lhs ++ rhs ∧
            lhs.map (fun p => (p.code, p.position)) =
              ((outputs (nodes.zip counts)).drop (min labels.length counts.sum)).map
                (fun n => (.mismatchLHS, n.position)) ∧
            lhs.length = counts.sum - min labels.length counts.sum ∧
            rhs.map (fun p => (p.code, p.position)) =
              (labels.drop (min labels.length counts.sum)).map
                (fun l => (.mismatchRHS, l.position)) ∧
            rhs.length = labels.length - min labels.length counts.sum := by
  refine ⟨fun ⟨n, hn, hc⟩ => bind_of_unknown hn hc, ?_⟩
  intro counts hcounts
  have h := mapM_of_map_eq hcounts
  obtain ⟨hfst, hsnd⟩ := map_zip_counts h
  have hlength : (outputs (nodes.zip counts)).length = counts.sum := by
    rw [length_outputs, hsnd]
  have houtputs : (outputs (nodes.zip counts)).drop (min labels.length counts.sum) =
      (outputs (nodes.zip counts)).drop labels.length := by
    rw [← hlength, ← List.drop_eq_drop_min]
  have hnames : labels.drop (min labels.length counts.sum) = labels.drop counts.sum := by
    rw [Nat.min_comm, ← List.drop_eq_drop_min]
  rw [bind_eq h hfresh]
  refine ⟨?_, ?_, ?_, _, _, rfl, ?_, ?_, ?_, ?_⟩
  · rw [tags_named, hsnd, Nat.min_comm, ← List.take_eq_take_min]
  · rw [length_named, ← List.length_map, hfst]
  · intro i n k hn hk
    have hp : (nodes.zip counts)[i]? = some (n, k) :=
      List.getElem?_zip_eq_some.mpr ⟨hn, hk⟩
    rw [getElem?_named hp, hsnd]
  · rw [houtputs, List.map_map]
    rfl
  · rw [← houtputs, List.length_map, List.length_drop, hlength]
  · rw [hnames, List.map_map]
    rfl
  · rw [← hnames, List.length_map, List.length_drop]

theorem bind_positional_outputs :
    let call (k i : Nat) : Node :=
      .call { name := "op", opcode := none, position := .point i, outputs := some k } [] []
    let nodes := [call 0 4, call 3 8, .value "1" (some 1) (.point 12) []]
    let labels : List Label := [⟨"a", .point 0⟩, ⟨"b", .point 2⟩]
    (∀ n ∈ nodes, n.tags = []) ∧ nodes.map Node.outputCount? = [0, 3, 1].map some ∧
      (bind labels nodes).1.flatMap (·.tags) = labels ∧
      (bind labels nodes).1[1]? = some ((call 3 8).retag labels) ∧
      (bind labels nodes).2.map (fun p => (p.code, p.position)) =
        [(.mismatchLHS, .point 8), (.mismatchLHS, .point 12)] := by
  intro call nodes labels
  have hfresh : ∀ n ∈ nodes, n.tags = [] := by simp [nodes, call, Node.tags]
  have hcounts : nodes.map Node.outputCount? = [0, 3, 1].map some := rfl
  obtain ⟨-, h⟩ := bind_positional labels nodes hfresh
  obtain ⟨htags, -, hnode, lhs, rhs, hproblems, hlhs, -, hrhs, -⟩ := h [0, 3, 1] hcounts
  refine ⟨hfresh, hcounts, htags, hnode 1 (call 3 8) 3 rfl rfl, ?_⟩
  rw [hproblems, List.map_append, hlhs, hrhs]
  rfl

end Binding

end Wordcode
