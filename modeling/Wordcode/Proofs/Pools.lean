import Mathlib
import Wordcode.Compile.Pool

namespace Wordcode

namespace Pool

/-- The values and their places are two views of the same list. -/
def Valid (pool : Pool) : Prop :=
  ∀ v i, pool.places.get? v = some i ↔ pool.values.toList[i]? = some v

/-- The values behind a list when one more comes. -/
def extend (values : List Nat) (v : Nat) : List Nat :=
  if v ∈ values then values else values ++ [v]

theorem valid_empty : ({} : Pool).Valid := by
  intro v i
  simp

variable {pool pool' : Pool} {v i : Nat}

theorem Valid.mem_iff (h : pool.Valid) : v ∈ pool.values.toList ↔ ∃ i, pool.places.get? v = some i := by
  rw [List.mem_iff_getElem?]
  exact exists_congr fun i => (h v i).symm

theorem Valid.nodup (h : pool.Valid) : pool.values.toList.Nodup := by
  rw [List.nodup_iff_getElem?_ne_getElem?]
  intro i j hij hj he
  have hv : pool.values.toList[i]? = some pool.values.toList[i] :=
    List.getElem?_eq_getElem (by omega)
  have hi := (h _ _).mpr hv
  rw [he] at hv
  have hj := (h _ _).mpr hv
  rw [hi] at hj
  simp only [Option.some.injEq] at hj
  omega

theorem prefix_extend (values : List Nat) (v : Nat) : values <+: extend values v := by
  unfold extend
  split
  · exact List.prefix_refl _
  · exact List.prefix_append _ _

theorem mem_extend {values : List Nat} {v w : Nat} : w ∈ extend values v ↔ w ∈ values ∨ w = v := by
  unfold extend
  split
  · exact ⟨.inl, fun h => h.elim id (by rintro rfl; assumption)⟩
  · simp

theorem getElem?_of_prefix {values values' : List Nat} {v i : Nat} (h : values <+: values')
    (hi : values[i]? = some v) : values'[i]? = some v := by
  obtain ⟨more, rfl⟩ := h
  rw [List.getElem?_append_left (List.getElem?_eq_some_iff.mp hi).1, hi]

theorem Valid.notMem (h : pool.Valid) (hp : pool.places.get? v = none) :
    v ∉ pool.values.toList := by
  rw [h.mem_iff]
  rintro ⟨i, hi⟩
  rw [hp] at hi
  simp at hi

theorem Valid.push (h : pool.Valid) (hv : v ∉ pool.values.toList) :
    Valid ⟨pool.values.push v, pool.places.insert v pool.values.size⟩ := by
  intro w j
  simp only [Std.TreeMap.get?_eq_getElem?, Std.TreeMap.getElem?_insert, Array.toList_push,
    Nat.compare_eq_eq]
  have hlen : pool.values.toList.length = pool.values.size := Array.length_toList
  by_cases hj : j < pool.values.size
  · rw [List.getElem?_append_left (by omega)]
    by_cases hw : v = w
    · subst hw
      have hn : pool.values.toList[j]? ≠ some v := fun he => hv (List.mem_of_getElem? he)
      simp only [if_true, Option.some.injEq, hn, iff_false]
      omega
    · rw [if_neg hw]
      exact h w j
  · rw [List.getElem?_append_right (by omega), List.getElem?_singleton]
    by_cases hw : v = w
    · subst hw
      simp only [if_true, Option.some.injEq]
      split
      · simp only [iff_true]
        omega
      · simp only [reduceCtorEq, iff_false]
        omega
    · have hn : pool.places[w]? ≠ some j := fun he => by
        have hg := (h w j).mp he
        rw [List.getElem?_eq_none (by omega)] at hg
        simp at hg
      simp [hw, hn]

theorem Valid.add (h : pool.Valid) (ha : pool.add v = some (pool', i)) :
    pool'.Valid ∧ pool'.values.toList = extend pool.values.toList v ∧
      pool'.values.toList[i]? = some v := by
  unfold Pool.add at ha
  split at ha
  · rename_i j hj
    simp only [Option.some.injEq, Prod.mk.injEq] at ha
    obtain ⟨rfl, rfl⟩ := ha
    have hm : v ∈ pool.values.toList := h.mem_iff.mpr ⟨j, hj⟩
    exact ⟨h, by simp [extend, hm], (h _ _).mp hj⟩
  · rename_i hnone
    dsimp only at ha
    split at ha
    · simp only [Option.some.injEq, Prod.mk.injEq] at ha
      obtain ⟨rfl, rfl⟩ := ha
      have hm := h.notMem hnone
      exact ⟨h.push hm, by simp [extend, hm], by simp⟩
    · simp at ha

theorem Valid.add_of_getElem? (h : pool.Valid) (hi : pool.values.toList[i]? = some v) :
    pool.add v = some (pool, i) := by
  rw [Pool.add, (h v i).mpr hi]

theorem Valid.add_of_subset (h : pool.Valid) {allowed : List Nat}
    (hs : ∀ w ∈ pool.values.toList, w ∈ allowed) (hl : allowed.length ≤ Instruction.maxIndex + 1)
    (hv : v ∈ allowed) :
    ∃ pool' i, pool.add v = some (pool', i) ∧ i ≤ Instruction.maxIndex := by
  have hsize : pool.values.size = pool.values.toList.length := Array.length_toList.symm
  cases hp : pool.places.get? v with
  | some i =>
    have hi := (h v i).mp hp
    have hlt := (List.getElem?_eq_some_iff.mp hi).1
    have hle : pool.values.toList.length ≤ allowed.length :=
      (h.nodup.subperm hs).length_le
    exact ⟨pool, i, h.add_of_getElem? hi, by omega⟩
  | none =>
    have hn : (v :: pool.values.toList).Nodup :=
      List.nodup_cons.mpr ⟨h.notMem hp, h.nodup⟩
    have hsub : ∀ w ∈ v :: pool.values.toList, w ∈ allowed := by
      rw [List.forall_mem_cons]
      exact ⟨hv, hs⟩
    have hle := (hn.subperm hsub).length_le
    rw [List.length_cons] at hle
    have hroom : pool.values.size ≤ Instruction.maxIndex := by omega
    refine ⟨⟨pool.values.push v, pool.places.insert v pool.values.size⟩, pool.values.size, ?_,
      hroom⟩
    rw [Pool.add, hp]
    simp [hroom]

theorem foldl_extend (values more : List Nat) :
    more.foldl extend values = values ++ (more.filter (· ∉ values)).eraseDups := by
  induction more generalizing values with
  | nil => simp
  | cons v more ih =>
    rw [List.foldl_cons, ih]
    unfold extend
    by_cases hv : v ∈ values
    · simp [hv]
    · have hf : more.filter (· ∉ values ++ [v]) =
          (more.filter (· ∉ values)).filter (fun w => !w == v) := by
        rw [List.filter_filter]
        refine List.filter_congr ?_
        intro w _
        by_cases hw : w = v <;> simp [hw]
      rw [if_neg hv, hf, List.filter_cons_of_pos (by simpa using hv), List.eraseDups_cons]
      simp

theorem prefix_foldl (values more : List Nat) : values <+: more.foldl extend values := by
  rw [foldl_extend]
  exact List.prefix_append _ _

theorem size_le_of_add (h : pool.size ≤ Instruction.maxIndex + 1)
    (ha : pool.add v = some (pool', i)) : pool'.size ≤ Instruction.maxIndex + 1 := by
  unfold add at ha
  split at ha
  · cases ha
    exact h
  · dsimp only at ha
    split at ha
    · rename_i hi
      cases ha
      rw [size, Array.size_push]
      exact Nat.succ_le_succ hi
    · cases ha

theorem Valid.place_cases (h : pool.Valid) (v : Nat) :
    (∃ i, pool.values.toList[i]? = some v ∧ pool.place v = (some i, pool)) ∨
    (∃ pool' : Pool, v ∉ pool.values.toList ∧ pool.size ≤ Instruction.maxIndex ∧
      pool.place v = (some pool.size, pool') ∧ pool'.Valid ∧
      pool'.values.toList = pool.values.toList ++ [v]) ∨
    (v ∉ pool.values.toList ∧ Instruction.maxIndex < pool.size ∧ pool.place v = (none, pool)) := by
  cases hp : pool.places.get? v with
  | some i =>
    have hi := (h v i).mp hp
    exact .inl ⟨i, hi, by rw [place, h.add_of_getElem? hi]⟩
  | none =>
    have hv := h.notMem hp
    refine .inr ?_
    by_cases hroom : pool.size ≤ Instruction.maxIndex
    · refine .inl ⟨⟨pool.values.push v, pool.places.insert v pool.values.size⟩, hv, hroom, ?_,
        h.push hv, by simp⟩
      rw [size] at hroom
      rw [place, Pool.add, hp]
      simp [hroom, size]
    · refine .inr ⟨hv, by omega, ?_⟩
      rw [size] at hroom
      rw [place, Pool.add, hp]
      simp [hroom]

def after (vs : List Nat) : Pool :=
  vs.foldl (fun pool v => (pool.place v).2) {}

theorem after_concat (vs : List Nat) (v : Nat) : after (vs ++ [v]) = ((after vs).place v).2 := by
  rw [after, List.foldl_append]
  rfl

theorem valid_after (vs : List Nat) : (after vs).Valid := by
  induction vs using List.reverseRecOn with
  | nil => exact valid_empty
  | append_singleton vs v ih =>
    rw [after_concat]
    obtain ⟨i, -, hp⟩ | ⟨pool', -, -, hp, hvalid, -⟩ | ⟨-, -, hp⟩ := ih.place_cases v
    · rw [hp]
      exact ih
    · rw [hp]
      exact hvalid
    · rw [hp]
      exact ih

theorem eraseDups_concat (vs : List Nat) (v : Nat) :
    (vs ++ [v]).eraseDups = extend vs.eraseDups v := by
  have h : ∀ ws : List Nat, ws.eraseDups = ws.foldl extend [] := by
    intro ws
    simp [foldl_extend]
  rw [h, h vs, List.foldl_append]
  rfl

theorem values_after (vs : List Nat) :
    (after vs).values.toList = vs.eraseDups.take (Instruction.maxIndex + 1) := by
  induction vs using List.reverseRecOn with
  | nil => rfl
  | append_singleton vs v ih =>
    have hsize : (after vs).size = (vs.eraseDups.take (Instruction.maxIndex + 1)).length := by
      rw [← ih, size, Array.length_toList]
    rw [List.length_take] at hsize
    have hmem : v ∈ (after vs).values.toList → v ∈ vs.eraseDups := by
      rw [ih]
      exact List.mem_of_mem_take
    rw [after_concat, eraseDups_concat, extend]
    obtain ⟨i, hi, hp⟩ | ⟨pool', hv, hroom, hp, -, hvalues⟩ | ⟨hv, hfull, hp⟩ :=
      (valid_after vs).place_cases v
    · rw [hp, if_pos (hmem (List.mem_of_getElem? hi))]
      exact ih
    · have hall : vs.eraseDups.take (Instruction.maxIndex + 1) = vs.eraseDups :=
        List.take_of_length_le (by omega)
      rw [ih, hall] at hv
      rw [hp, if_neg hv, hvalues, ih, hall]
      rw [List.take_of_length_le (by rw [List.length_append, List.length_singleton]; omega)]
    · rw [hp, ih]
      split
      · rfl
      · rw [List.take_append_of_le_length (by omega)]

theorem prefix_after (vs more : List Nat) :
    (after vs).values.toList <+: (after (vs ++ more)).values.toList := by
  rw [values_after, values_after, List.eraseDups_append]
  exact (List.prefix_append _ _).take _

theorem size_after_le (vs : List Nat) : (after vs).size ≤ Instruction.maxIndex + 1 := by
  rw [size, ← Array.length_toList, values_after]
  exact List.length_take_le _ _

theorem get?_eq (pool : Pool) (i : Nat) : pool.get? i = pool.values.toList[i]? := by
  rw [get?, Array.getElem?_toList]

theorem place_of_get? (vs : List Nat) {v i : Nat} (h : (after vs).get? i = some v) :
    (after vs).place v = (some i, after vs) := by
  rw [get?_eq] at h
  rw [place, (valid_after vs).add_of_getElem? h]

theorem get?_of_place {vs : List Nat} {v i : Nat} (h : ((after vs).place v).1 = some i)
    (more : List Nat) : (after (vs ++ v :: more)).get? i = some v := by
  have hsplit : vs ++ v :: more = vs ++ [v] ++ more := by simp
  rw [get?_eq, hsplit]
  refine getElem?_of_prefix (prefix_after (vs ++ [v]) more) ?_
  rw [after_concat]
  obtain ⟨j, hj, hp⟩ | ⟨pool', -, -, hp, -, hvalues⟩ | ⟨-, -, hp⟩ := (valid_after vs).place_cases v
  · rw [hp, Option.some.injEq] at h
    rw [hp, ← h]
    exact hj
  · rw [hp, Option.some.injEq] at h
    rw [hp, hvalues, ← h, size, ← Array.length_toList]
    simp
  · rw [hp] at h
    cases h

theorem place_eq_none_iff (vs : List Nat) (v : Nat) :
    ((after vs).place v).1 = none ↔
      v ∉ (after vs).values.toList ∧ (after vs).size = Instruction.maxIndex + 1 := by
  have hle := size_after_le vs
  obtain ⟨i, hi, hp⟩ | ⟨pool', hv, hroom, hp, -⟩ | ⟨hv, hfull, hp⟩ := (valid_after vs).place_cases v
  · simp [hp, List.mem_of_getElem? hi]
  · rw [hp]
    simp only [reduceCtorEq, false_iff, not_and]
    omega
  · rw [hp]
    simp only [true_iff]
    exact ⟨hv, by omega⟩

theorem values_after_of_nodup {vs : List Nat} (hd : vs.Nodup)
    (hl : vs.length ≤ Instruction.maxIndex + 1) : (after vs).values.toList = vs := by
  have he : vs.eraseDups = vs := by
    induction vs using List.reverseRecOn with
    | nil => rfl
    | append_singleton vs v ih =>
      rw [List.length_append, List.length_singleton] at hl
      rw [← List.concat_eq_append, List.nodup_concat] at hd
      rw [eraseDups_concat, ih hd.2 (by omega), extend, if_neg hd.1]
  rw [values_after, he, List.take_of_length_le hl]

theorem values_after_range {n : Nat} (hn : n ≤ Instruction.maxIndex + 1) :
    (after (List.range n)).values.toList = List.range n :=
  values_after_of_nodup List.nodup_range (by rwa [List.length_range])

theorem get?_after_range {n : Nat} (hn : n ≤ Instruction.maxIndex + 1) (i v : Nat) :
    (after (List.range n)).get? i = some v ↔ i < n ∧ i = v := by
  rw [get?_eq, values_after_range hn, List.getElem?_eq_some_iff]
  simp

/-- The values are the first distinct ones that were added, and the places are their inverse. A
place that was given stays with its value, and only a new value that comes behind 32768 others has
none, which changes nothing. -/
theorem place_after (vs : List Nat) :
    (after vs).values.toList = vs.eraseDups.take 32768 ∧
    (after vs).values.toList.Nodup ∧
    (∀ v i, (after vs).places.get? v = some i ↔ (after vs).get? i = some v) ∧
    (∀ v i, ((after vs).place v).1 = some i → ∀ more,
      (after (vs ++ v :: more)).get? i = some v ∧
      (after (vs ++ v :: more)).place v = (some i, after (vs ++ v :: more))) ∧
    (∀ v, ((after vs).place v).1 = none ↔
      (∀ i, (after vs).get? i ≠ some v) ∧ (after vs).size = 32768) ∧
    (∀ v, ((after vs).place v).1 = none → ((after vs).place v).2 = after vs ∧
      ∀ w i, (after vs).get? i = some w →
        ((after vs).place v).2.place w = (some i, after vs)) := by
  have hvalid := valid_after vs
  refine ⟨values_after vs, hvalid.nodup, ?_, ?_, ?_, ?_⟩
  · intro v i
    rw [get?_eq]
    exact hvalid v i
  · intro v i hi more
    have hget := get?_of_place hi more
    exact ⟨hget, place_of_get? _ hget⟩
  · intro v
    rw [place_eq_none_iff, List.mem_iff_getElem?, not_exists]
    simp only [get?_eq, Instruction.maxIndex]
  · intro v hv
    obtain ⟨i, -, hp⟩ | ⟨pool', -, -, hp, -⟩ | ⟨-, -, hp⟩ := hvalid.place_cases v
    · rw [hp] at hv
      cases hv
    · rw [hp] at hv
      cases hv
    · rw [hp]
      exact ⟨rfl, fun w i hw => place_of_get? vs hw⟩

theorem place_after_range :
    let pool := after (List.range 32768)
    pool.size = 32768 ∧ (pool.place 32768).1 = none ∧ (pool.place 32768).2 = pool ∧
      (pool.place 32768).2.place 32767 = (some 32767, pool) := by
  have hfits : 32768 ≤ Instruction.maxIndex + 1 := Nat.le_refl _
  have hget := get?_after_range hfits
  have hsize : (after (List.range 32768)).size = 32768 := by
    rw [size, ← Array.length_toList, values_after_range hfits, List.length_range]
  obtain ⟨-, -, -, -, hnone, hkept⟩ := place_after (List.range 32768)
  have hfull : ((after (List.range 32768)).place 32768).1 = none := by
    refine (hnone 32768).mpr ⟨fun i hi => ?_, hsize⟩
    obtain ⟨hlt, rfl⟩ := (hget i 32768).mp hi
    exact absurd hlt (by decide)
  obtain ⟨hsame, hfound⟩ := hkept 32768 hfull
  exact ⟨hsize, hfull, hsame, hfound 32767 32767 ((hget 32767 32767).mpr ⟨by decide, rfl⟩)⟩

end Pool

end Wordcode
