import Wordcode.Document.Scanner.Reader
import Wordcode.Proofs.Indices
import Wordcode.Proofs.Lookup
import Wordcode.Proofs.Soundness

namespace Wordcode

theorem Checked.mapM_require {α β : Type} {f : α → Option β} (fault : α → Fault) {as : List α}
    (h : ∀ a ∈ as, (f a).isSome = true) :
    as.mapM (fun a => require (fault a) (f a)) = pure (as.filterMap f) := by
  induction as with
  | nil => rfl
  | cons a as ih =>
    obtain ⟨b, hb⟩ := Option.isSome_iff_exists.mp (h a (by simp))
    rw [List.mapM_cons, ih fun x hx => h x (by simp [hx]), List.filterMap_cons_some hb, hb]
    rfl

namespace Table

variable {entries : List Opcode} {table : Table}

theorem index_lt (h : ofEntries entries = .ok table) {key : String} {number : UInt16}
    (hk : table.index.get? key = some number) : number.toNat < table.entries.size := by
  obtain ⟨hindex, hentries⟩ := ofEntries_ok h
  obtain ⟨op, hop, hkey⟩ := List.mem_flatMap.mp (mem_keys_of_index h hk)
  obtain ⟨name, hname, rfl⟩ := List.mem_map.mp hkey
  obtain ⟨i, hi⟩ := List.mem_iff_getElem?.mp hop
  have hlt : i < entries.length := (List.getElem?_eq_some_iff.mp hi).1
  have hmax : entries.length ≤ 65536 := (ofEntries_isOk_iff.mp ⟨table, h⟩).1.2
  have hentry := List.mk_mem_zipIdx_iff_getElem?.mpr hi
  have hnumber := ((addEntries_ok hindex).2 op i hentry).2 name hname
  rw [Std.TreeMap.get?_eq_getElem?, hnumber, Option.some.injEq] at hk
  rw [← hk, toNat_ofNat (by omega), hentries]
  exact hlt

theorem find_eq (h : ofEntries entries = .ok table) (word : String) :
    table.find word = pure (table.lookup word) := by
  rw [find, lookup]
  cases hk : table.index.get? (normalize word) with
  | none => rfl
  | some number =>
    have hget := Array.getElem?_eq_getElem (index_lt h hk)
    dsimp only
    rw [Checked.get_eq_pure hget, pure_bind]
    simp [get?, hget]

end Table

theorem Call.settle_eq (c : Call) (op : Opcode) (params : Nat) (nested : Bool) :
    c.settle op params nested = pure (c.resolve op params nested) := by
  rw [settle, resolve]
  cases hp : op.packOperand (c.arguments.map (·.value)) params with
  | error indices =>
    have hlt := (Opcode.packOperand_eq_error hp).2
    dsimp only
    rw [Checked.mapM_require _ fun k hk => badItem_isSome c params (hlt k hk), pure_bind]
  | ok operand => rfl

def Frame.LookedUp (table : Table) (f : Frame) : Prop :=
  f.entry = f.call.opcode.bind table.get?

theorem Frame.exists_settle (f : Frame) (table : Table) (i : Nat) (nested : Bool) :
    ∃ closed, f.settle table i nested = pure closed ∧
      (f.LookedUp table → closed = f.close i nested) := by
  refine ⟨Frame.close { f with entry := f.call.opcode.bind table.get? } i nested, ?_, ?_⟩
  · have hopcode : (f.closed i).opcode = f.call.opcode := rfl
    rw [settle, close, hopcode]
    cases f.call.opcode.bind table.get? with
    | none => rfl
    | some op =>
      dsimp only
      cases f.operandError with
      | true => rfl
      | false =>
        have hclosed : closed { f with entry := some op, operandError := false } i = f.closed i :=
          rfl
        dsimp only
        rw [Call.settle_eq, pure_bind, hclosed]
        cases (f.closed i).resolve op f.parameters.reverse.length nested <;> rfl
  · intro h
    rw [← h]

namespace Reading

def LookedUp (table : Table) (r : Reading) : Prop :=
  ∀ f ∈ r.frames, f.LookedUp table

variable {table : Table} {r : Reading}

theorem exists_settle (r : Reading) (table : Table) (i : Nat) :
    ∃ r', r.settle table i = pure r' ∧ (r.LookedUp table → r' = r.close i) := by
  rw [settle, close]
  cases hf : r.frames with
  | nil => exact ⟨_, rfl, fun _ => rfl⟩
  | cons f frames =>
    obtain ⟨closed, hclosed, heq⟩ := f.exists_settle table i (!frames.isEmpty)
    refine ⟨_, by dsimp only; rw [hclosed, pure_bind], ?_⟩
    intro h
    rw [heq (h f (by rw [hf]; simp))]

theorem LookedUp.of_keeps {r' : Reading} (h : r.LookedUp table) (hk : r.Keeps r') :
    r'.LookedUp table := by
  intro f hf
  rw [hk.1] at hf
  exact h f hf

theorem LookedUp.push (h : r.LookedUp table) (n : Node) : (r.push n).LookedUp table := by
  unfold Reading.push
  split
  · exact h
  · rename_i f frames hf
    intro g hg
    rcases List.mem_cons.mp hg with rfl | hm
    · exact h f (by simp [hf])
    · exact h g (by simp [hf, hm])

theorem LookedUp.act {t : Token} {r' : Reading} (h : r.LookedUp table) (ha : Act table r t r') :
    r'.LookedUp table := by
  cases ha with
  | keep hk _ => exact h.of_keeps hk
  | value _ hk | reference _ hk | plain _ hk => exact (h.of_keeps hk).push _
  | @opens w _ found paren _ hl hframes _ =>
    intro f hf
    rw [hframes] at hf
    rcases List.mem_cons.mp hf with rfl | hm
    · cases found with
      | none => rfl
      | some found => exact (Table.get?_of_lookup (hl _ _ rfl)).symm
    · exact h f hm
  | @closes r'' f frames i hf hk =>
    have hrest : LookedUp table { r with frames := frames } :=
      fun g hg => h g (by rw [hf]; exact List.mem_cons_of_mem f hg)
    exact (hrest.of_keeps hk).push _

end Reading

end Wordcode
