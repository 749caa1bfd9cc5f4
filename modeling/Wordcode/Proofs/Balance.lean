import Wordcode.Document.Binding
import Wordcode.Proofs.Packing

namespace Wordcode

/-- The second node is the first one with more names on its outputs. -/
def Node.Tagged (n n' : Node) : Prop :=
  ∃ labels, n' = n.attach labels

theorem Node.Tagged.outputCount?_eq {n n' : Node} (h : n.Tagged n') :
    n'.outputCount? = n.outputCount? := by
  obtain ⟨labels, rfl⟩ := h
  cases n <;> rfl

def Node.TaggedFrom (labels : List Label) (n n' : Node) : Prop :=
  ∃ tags ⊆ labels, n' = n.attach tags

theorem Node.TaggedFrom.tagged {labels : List Label} {n n' : Node} (h : n.TaggedFrom labels n') :
    n.Tagged n' := by
  obtain ⟨tags, -, heq⟩ := h
  exact ⟨tags, heq⟩

theorem Node.mem_tags_attach {n : Node} {labels : List Label} {l : Label}
    (h : l ∈ (n.attach labels).tags) : l ∈ n.tags ∨ l ∈ labels := by
  have hlatest : ∀ tags, l ∈ latest tags labels → l ∈ tags ∨ l ∈ labels := by
    intro tags hl
    unfold latest at hl
    split at hl
    · rename_i last hlast
      rw [List.mem_singleton.mp hl]
      exact .inr (List.mem_of_getLast? hlast)
    · exact .inl hl
  cases n with
  | value raw v p tags => exact hlatest tags h
  | reference name p tags => exact hlatest tags h
  | call head params tags => exact List.mem_append.mp h

theorem Node.taggedFrom_self (labels : List Label) (n : Node) : n.TaggedFrom labels n :=
  ⟨[], List.nil_subset _, by cases n <;> simp [attach, latest]⟩

namespace Binding

def bindAll (b : Binding) (nodes : List (Node × Nat)) : Binding :=
  nodes.foldl (fun b (n, outputs) => b.step n outputs) b

theorem bindAll_labels (b : Binding) (nodes : List (Node × Nat)) :
    (b.bindAll nodes).labels = b.labels.drop (nodes.map (·.2)).sum := by
  induction nodes generalizing b with
  | nil => rfl
  | cons p nodes ih =>
    have h := ih (b.step p.1 p.2)
    rw [step, List.drop_drop] at h
    simpa [bindAll, step] using h

theorem bindAll_problems (b : Binding) (nodes : List (Node × Nat)) :
    (b.bindAll nodes).problems.length =
      b.problems.length + ((nodes.map (·.2)).sum - b.labels.length) := by
  induction nodes generalizing b with
  | nil => simp [bindAll]
  | cons p nodes ih =>
    have h := ih (b.step p.1 p.2)
    rw [step, List.length_append, List.length_replicate, List.length_drop] at h
    change ((b.step p.1 p.2).bindAll nodes).problems.length = _
    rw [step, h, List.map_cons, List.sum_cons]
    omega

theorem bindAll_nodes (b : Binding) (nodes : List (Node × Nat)) :
    ∃ new, (b.bindAll nodes).nodes = new.reverse ++ b.nodes ∧
      List.Forall₂ (Node.TaggedFrom b.labels) (nodes.map (·.1)) new := by
  induction nodes generalizing b with
  | nil => exact ⟨[], rfl, .nil⟩
  | cons p nodes ih =>
    obtain ⟨new, hn, ht⟩ := ih (b.step p.1 p.2)
    refine ⟨p.1.attach (b.labels.take p.2) :: new, by simpa [bindAll, step] using hn,
      .cons ⟨_, List.take_subset _ _, rfl⟩ (ht.imp ?_)⟩
    rintro n n' ⟨tags, hsub, heq⟩
    exact ⟨tags, List.Subset.trans hsub (List.drop_subset _ _), heq⟩

theorem bind_of_counts {labels : List Label} {nodes : List Node} {counts : List Nat}
    (h : nodes.mapM Node.outputCount? = some counts) :
    bind labels nodes =
      (let b := ({ labels := labels } : Binding).bindAll (nodes.zip counts)
       (b.nodes.reverse, b.problems.reverse ++ b.labels.map unmatched)) := by
  rw [bind, h]
  rfl

theorem length_counts {nodes : List Node} {counts : List Nat}
    (h : nodes.mapM Node.outputCount? = some counts) : counts.length = nodes.length :=
  (mapM_eq_some_iff.mp h).length_eq.symm

theorem map_zip_counts {nodes : List Node} {counts : List Nat}
    (h : nodes.mapM Node.outputCount? = some counts) :
    (nodes.zip counts).map (·.1) = nodes ∧ (nodes.zip counts).map (·.2) = counts := by
  have hl := length_counts h
  exact ⟨List.map_fst_zip hl.ge, List.map_snd_zip hl.le⟩

theorem bind_problems_eq_nil_iff {labels : List Label} {nodes : List Node} {counts : List Nat}
    (h : nodes.mapM Node.outputCount? = some counts) :
    (bind labels nodes).2 = [] ↔ counts.sum = labels.length := by
  have hp := bindAll_problems { labels := labels } (nodes.zip counts)
  have hl := bindAll_labels { labels := labels } (nodes.zip counts)
  rw [(map_zip_counts h).2] at hp hl
  rw [bind_of_counts h]
  simp only [List.append_eq_nil_iff, List.reverse_eq_nil_iff, List.map_eq_nil_iff, hl,
    List.drop_eq_nil_iff]
  rw [← List.length_eq_zero_iff, hp]
  simp only [List.length_nil, Nat.zero_add]
  omega

theorem bind_taggedFrom (labels : List Label) (nodes : List Node) :
    List.Forall₂ (Node.TaggedFrom labels) nodes (bind labels nodes).1 := by
  cases h : nodes.mapM Node.outputCount? with
  | none =>
    rw [bind, h]
    exact List.forall₂_same.mpr fun n _ => n.taggedFrom_self labels
  | some counts =>
    obtain ⟨new, hn, ht⟩ := bindAll_nodes { labels := labels } (nodes.zip counts)
    rw [(map_zip_counts h).1] at ht
    rw [bind_of_counts h]
    simpa [hn] using ht

theorem bind_nodes (labels : List Label) (nodes : List Node) :
    List.Forall₂ Node.Tagged nodes (bind labels nodes).1 :=
  (bind_taggedFrom labels nodes).imp fun _ _ h => h.tagged

theorem bindAll_problems_mem (b : Binding) (nodes : List (Node × Nat)) :
    ∀ q ∈ (b.bindAll nodes).problems, q ∈ b.problems ∨ ∃ p ∈ nodes, q = unnamed p.1 := by
  induction nodes generalizing b with
  | nil => exact fun q hq => .inl hq
  | cons p nodes ih =>
    intro q hq
    rcases ih (b.step p.1 p.2) q hq with hq | ⟨p', hp', rfl⟩
    · rcases List.mem_append.mp hq with hq | hq
      · exact .inr ⟨p, by simp, List.eq_of_mem_replicate hq⟩
      · exact .inl hq
    · exact .inr ⟨p', by simp [hp'], rfl⟩

theorem bind_problems_mem {labels : List Label} {nodes : List Node} :
    ∀ q ∈ (bind labels nodes).2,
      (∃ n ∈ nodes, q = unnamed n) ∨ ∃ l ∈ labels, q = unmatched l := by
  intro q hq
  cases h : nodes.mapM Node.outputCount? with
  | none => simp [bind, h] at hq
  | some counts =>
    rw [bind_of_counts h, List.mem_append, List.mem_reverse] at hq
    rcases hq with hq | hq
    · rcases bindAll_problems_mem _ _ q hq with hq | ⟨p, hp, rfl⟩
      · cases hq
      · have hm := List.mem_map_of_mem (f := (·.1)) hp
        rw [(map_zip_counts h).1] at hm
        exact .inl ⟨p.1, hm, rfl⟩
    · obtain ⟨l, hl, rfl⟩ := List.mem_map.mp hq
      rw [bindAll_labels] at hl
      exact .inr ⟨l, List.drop_subset _ _ hl, rfl⟩

end Binding

end Wordcode
