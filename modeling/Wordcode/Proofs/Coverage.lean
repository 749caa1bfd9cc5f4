import Wordcode.Proofs.Positions

namespace Wordcode.Reading

variable {text : List Char} {lo mid hi i : Nat} {r r' : Reading} {table : Table} {t : Token}

/-- An index is in a node, or behind the start of an open call. -/
def Covers (i : Nat) (r : Reading) : Prop :=
  (∃ n ∈ r.nodes, n.position.first ≤ i ∧ i ≤ n.position.last) ∨
    ∃ f ∈ r.frames, f.call.position.first ≤ i

theorem Covers.keeps (h : r.Covers i) (hk : r.Keeps r') : r'.Covers i := by
  unfold Covers
  rw [hk.1, hk.2]
  exact h

theorem Covers.push (h : r.Covers i) (n : Node) : (r.push n).Covers i := by
  unfold Reading.push
  split
  · rcases h with ⟨m, hm, hi⟩ | hf
    · exact .inl ⟨m, List.mem_cons_of_mem _ hm, hi⟩
    · exact .inr hf
  · rename_i f frames hf
    rcases h with hn | ⟨g, hg, hi⟩
    · exact .inl hn
    · rw [hf] at hg
      rcases List.mem_cons.mp hg with rfl | hg
      · exact .inr ⟨_, List.mem_cons_self, hi⟩
      · exact .inr ⟨g, List.mem_cons_of_mem _ hg, hi⟩

theorem Laid.covers_push (h : r.Laid text lo mid) (hmid : mid ≤ i) {n : Node}
    (hn : n.position.first ≤ i ∧ i ≤ n.position.last) : (r.push n).Covers i := by
  unfold Reading.push
  split
  · exact .inl ⟨n, List.mem_cons_self, hn⟩
  · rename_i f frames hf
    unfold Laid at h
    rw [hf] at h
    exact .inr ⟨_, List.mem_cons_self, h.first_lt.le.trans hmid⟩

theorem Laid.covers_act (h : r.Laid text lo mid) (ha : Act table r t r') (hle : mid ≤ t.start)
    (hp : r'.problems = []) (hi : i < mid ∧ r.Covers i ∨ t.start ≤ i ∧ i < t.stop) :
    r'.Covers i := by
  cases ha with
  | keep _ hne => exact absurd hp hne
  | @value w r' v hw hk =>
    rcases hi with ⟨-, hi⟩ | ⟨hstart, hstop⟩
    · exact (hi.keeps hk).push _
    · rw [Token.stop_of_isCall hw] at hstop
      exact (h.keeps hk).covers_push (hle.trans hstart) ⟨hstart, Nat.le_of_lt_succ hstop⟩
  | @reference w r' hw hk =>
    rcases hi with ⟨-, hi⟩ | ⟨hstart, hstop⟩
    · exact (hi.keeps hk).push _
    · rw [Token.stop_of_isCall hw] at hstop
      exact (h.keeps hk).covers_push (hle.trans hstart) ⟨hstart, Nat.le_of_lt_succ hstop⟩
  | @plain w r' number hw hk =>
    rcases hi with ⟨-, hi⟩ | ⟨hstart, hstop⟩
    · exact (hi.keeps hk).push _
    · have hend : (Token.word w).stop = w.stop := by simp [Token.stop, hw]
      refine (h.keeps hk).covers_push (hle.trans hstart) ⟨hstart, ?_⟩
      simp only [Node.position, Word.call]
      omega
  | @opens w r' found paren hw _ hf hn =>
    unfold Covers
    rw [hf, hn]
    rcases hi with ⟨-, hi⟩ | ⟨hstart, hstop⟩
    · rcases hi with hi | ⟨g, hg, hi⟩
      · exact .inl hi
      · exact .inr ⟨g, List.mem_cons_of_mem _ hg, hi⟩
    · exact .inr ⟨_, List.mem_cons_self, hstart⟩
  | @closes r' f frames j hf hk =>
    unfold Laid at h
    rw [hf] at h
    have hopen : Laid text lo f.call.position.first { r with frames := frames } := h.2.2
    have hrest := hopen.keeps hk
    have hfirst := h.first_lt
    obtain ⟨operand, outputs, hclosed⟩ := f.exists_close j (!frames.isEmpty)
    have hnode : f.call.position.first ≤ i → i ≤ j →
        (r'.push (f.close j (!frames.isEmpty)).1).Covers i := by
      intro hlo hhi
      refine hrest.covers_push hlo ?_
      rw [hclosed]
      exact ⟨hlo, hhi⟩
    rcases hi with ⟨hlt, hi⟩ | ⟨hstart, hstop⟩
    · rcases hi with hi | ⟨g, hg, hi⟩
      · have hc : Covers i { r with frames := frames } := .inl hi
        exact (hc.keeps hk).push _
      · rw [hf] at hg
        rcases List.mem_cons.mp hg with rfl | hg
        · exact hnode hi (hlt.le.trans hle)
        · have hc : Covers i { r with frames := frames } := .inr ⟨g, hg, hi⟩
          exact (hc.keeps hk).push _
    · exact hnode (hfirst.le.trans (hle.trans hstart)) (Nat.le_of_lt_succ hstop)

theorem Laid.covers_foldl {ctx : Context} {ts : List Token} {c : Char} (h : r.Laid text lo mid)
    (hc : Token.Chain text mid hi ts) (hp : (ts.foldl (step ctx) r).problems = [])
    (hchar : text[i]? = some c) (hb : isBlank c = false) (hcovers : i < mid → r.Covers i)
    (hi : i < hi) : (ts.foldl (step ctx) r).Covers i := by
  have hgap : ∀ {lo hi}, Gap text lo hi → lo ≤ i → i < hi → False := by
    intro lo hi hg hlo hhi
    rw [hg i hlo hhi c hchar] at hb
    cases hb
  induction hc generalizing r with
  | @nil mid hi hle hg =>
    by_cases hmid : i < mid
    · exact hcovers hmid
    · exact (hgap hg (by omega) hi).elim
  | @cons mid next hi t ts hle hg ht he hrest ih =>
    have hnone : (step ctx r t).problems = [] := by
      have hs := foldl_step_problems ctx (step ctx r t) ts
      rw [List.foldl_cons] at hp
      rwa [hp, List.suffix_nil] at hs
    refine ih (h.act (step_act r t) hle ht he) hp ?_ hi
    intro hnext
    refine h.covers_act (step_act r t) hle hnone ?_
    by_cases hmid : i < mid
    · exact .inl ⟨hmid, hcovers hmid⟩
    by_cases hstart : i < t.start
    · exact (hgap hg (by omega) hstart).elim
    refine .inr ⟨by omega, ?_⟩
    cases t with
    | group j => simp [step, report] at hnone
    | _ => exact he ▸ hnext

theorem covers_read {ctx : Context} {right : Segment} {c : Char}
    (h : Stands text right.start right.chars) (hp : (read ctx right).problems = [])
    (hchar : text[i]? = some c) (hb : isBlank c = false) (hlo : right.start ≤ i)
    (hhi : i < right.stop) :
    ∃ n ∈ (read ctx right).nodes, n.position.first ≤ i ∧ i ≤ n.position.last := by
  have hempty : Laid text right.start right.start {} := .nil (Nat.le_refl _)
  rw [read_eq] at hp ⊢
  generalize hr : (Token.scan right).foldl (step ctx) {} = r at hp ⊢
  cases hf : r.frames with
  | nil =>
    rw [hf] at hp
    have hproblems : ((Token.scan right).foldl (step ctx) {}).problems = [] := hr ▸ hp
    have hcovers := hempty.covers_foldl (Token.chain_scan h) hproblems hchar hb
      (fun hlt => absurd hlo (by omega)) hhi
    rw [hr] at hcovers
    rcases hcovers with hn | ⟨f, hm, -⟩
    · exact hn
    · rw [hf] at hm
      cases hm
  | cons f frames =>
    rw [hf] at hp
    exact absurd hp (finishFrames_reports _ _ _ _ _)

end Wordcode.Reading
