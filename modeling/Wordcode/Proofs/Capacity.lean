import Wordcode.Proofs.Emission

namespace Wordcode

namespace Node

mutual

def inOrder : Node → List Node
  | .value raw v p tags => [.value raw v p tags]
  | .reference name p tags => [.reference name p tags]
  | .call head params tags => allInOrder params ++ [.call head params tags]

def allInOrder : List Node → List Node
  | [] => []
  | n :: rest => n.inOrder ++ allInOrder rest

end

def literal? : Node → Option Nat
  | .value _ v _ _ => v
  | _ => none

theorem Typed.contains_of_mem {table : Table} {scope : Scope} {nested : Bool} {ns : List Node}
    (h : Typed table scope nested ns) {name : String} {p : Position} {tags : List Label}
    (hm : .reference name p tags ∈ allInOrder ns) : scope.contains name = true := by
  induction h with
  | nil => simp [allInOrder] at hm
  | value _ _ ih => exact ih (by simpa [allInOrder, inOrder] using hm)
  | reference hs _ ih =>
    simp only [allInOrder, inOrder, List.singleton_append, List.mem_cons] at hm
    rcases hm with he | hm
    · cases he
      exact hs
    · exact ih hm
  | call _ _ _ _ _ _ _ ihp ih =>
    simp only [allInOrder, inOrder, List.mem_append, List.mem_singleton] at hm
    rcases hm with (hm | he) | hm
    · exact ihp hm
    · cases he
    · exact ih hm

end Node

/-- A node in a source, behind the labels of the statements before its own. -/
structure Site where
  source : Source
  before : List Label
  node : Node

namespace Site

def ofNodes (source : Source) (before : List Label) (ns : List Node) : List Site :=
  (Node.allInOrder ns).map (⟨source, before, ·⟩)

def ofStatements (source : Source) (before : List Label) : List Statement → List Site
  | [] => []
  | s :: rest => ofNodes source before s.nodes ++ ofStatements source (before ++ s.labels) rest

theorem ofNodes_cons (source : Source) (before : List Label) (n : Node) (rest : List Node) :
    ofNodes source before (n :: rest) =
      n.inOrder.map (⟨source, before, ·⟩) ++ ofNodes source before rest := by
  simp [ofNodes, Node.allInOrder]

def literals (sites : List Site) : List Nat :=
  sites.filterMap (·.node.literal?)

@[simp]
theorem literals_append (xs ys : List Site) :
    literals (xs ++ ys) = literals xs ++ literals ys := by
  simp [literals]

end Site

def Document.sites (d : Document) : List Site :=
  d.sources.flatMap fun s => Site.ofStatements s [] s.statements

/-- What can go wrong with a document that has no problems. -/
def CompileError.IsLimit : CompileError → Prop
  | .tooManyConstants => True
  | .stackSlotOutOfRange _ => True
  | .invalidMemoryRead .. => True
  | _ => False

namespace Pool

structure Holds (pool : Pool) (seen : List Nat) : Prop where
  valid : pool.Valid
  mem : ∀ v, v ∈ pool.values.toList ↔ v ∈ seen
  room : pool.size ≤ Instruction.maxIndex + 1

variable {pool : Pool} {seen : List Nat}

theorem holds_empty : ({} : Pool).Holds [] :=
  ⟨valid_empty, by simp, by simp [size]⟩

theorem Holds.size_eq (h : pool.Holds seen) : pool.size = seen.toFinset.card := by
  have hset : pool.values.toList.toFinset = seen.toFinset := by
    ext v
    simpa using h.mem v
  rw [← hset, List.toFinset_card_of_nodup h.valid.nodup, Array.length_toList]
  rfl

theorem Holds.add_of_mem (h : pool.Holds seen) {v : Nat} (hv : v ∈ seen) :
    ∃ i, pool.add v = some (pool, i) ∧ i ≤ Instruction.maxIndex := by
  obtain ⟨i, hi⟩ := List.mem_iff_getElem?.mp ((h.mem v).mpr hv)
  have hlt : i < pool.size := by
    have hl := (List.getElem?_eq_some_iff.mp hi).1
    rwa [Array.length_toList] at hl
  have hroom := h.room
  exact ⟨i, h.valid.add_of_getElem? hi, by omega⟩

theorem Holds.add_of_notMem (h : pool.Holds seen) {v : Nat} (hv : v ∉ seen) :
    pool.add v = if pool.size ≤ Instruction.maxIndex then
      some (⟨pool.values.push v, pool.places.insert v pool.size⟩, pool.size) else none := by
  have hnone : pool.places.get? v = none := by
    by_contra hne
    obtain ⟨i, hi⟩ := Option.ne_none_iff_exists'.mp hne
    exact hv ((h.mem v).mp (h.valid.mem_iff.mpr ⟨i, hi⟩))
  rw [add, hnone]
  rfl

theorem Holds.push (h : pool.Holds seen) {v : Nat} (hv : v ∉ seen)
    (hroom : pool.size ≤ Instruction.maxIndex) :
    Holds ⟨pool.values.push v, pool.places.insert v pool.size⟩ (seen ++ [v]) := by
  refine ⟨h.valid.push fun hm => hv ((h.mem v).mp hm), ?_, ?_⟩
  · intro w
    simp [← h.mem w]
  · rw [size, Array.size_push]
    exact Nat.succ_le_succ hroom

end Pool

namespace Site

/-- Whether a node goes into code behind numerals with the values `seen`. -/
def Fits (memory : UInt16) (seen : List Nat) (site : Site) : Prop :=
  match site.node with
  | .value _ v _ _ => ∀ n ∈ v, (seen ++ [n]).toFinset.card ≤ Instruction.maxIndex + 1
  | .reference name _ _ =>
    ∀ slot, (Scope.after site.before).slot? name = some slot → slot ≤ Instruction.maxIndex
  | .call head _ _ => ∀ operand, head.opcode = some memory → head.operand = some operand →
    match Region.ofOperand operand with
    | (.constant, index) => index < seen.toFinset.card
    | (.stack, index) => index < site.before.length

def AllFit (memory : UInt16) (seen : List Nat) : List Site → Prop
  | [] => True
  | site :: rest => site.Fits memory seen ∧ AllFit memory (seen ++ literals [site]) rest

variable {memory : UInt16} {seen : List Nat}

theorem allFit_singleton {site : Site} : AllFit memory seen [site] ↔ site.Fits memory seen := by
  simp [AllFit]

theorem allFit_append {xs ys : List Site} :
    AllFit memory seen (xs ++ ys) ↔
      AllFit memory seen xs ∧ AllFit memory (seen ++ literals xs) ys := by
  induction xs generalizing seen with
  | nil => simp [AllFit, literals]
  | cons x xs ih =>
    have hx : literals (x :: xs) = literals [x] ++ literals xs := literals_append [x] xs
    rw [List.cons_append, AllFit, AllFit, ih, hx, List.append_assoc, and_assoc]

theorem AllFit.fits {sites : List Site} (h : AllFit memory seen sites) {earlier later : List Site}
    {site : Site} (hs : sites = earlier ++ site :: later) :
    site.Fits memory (seen ++ literals earlier) := by
  rw [hs, allFit_append] at h
  exact h.2.1

theorem allFit_of_forall {sites : List Site} (h : ∀ earlier site later,
    sites = earlier ++ site :: later → site.Fits memory (seen ++ literals earlier)) :
    AllFit memory seen sites := by
  induction sites generalizing seen with
  | nil => trivial
  | cons site sites ih =>
    constructor
    · simpa [literals] using h [] site sites rfl
    · apply ih
      intro earlier site' later hs
      have hf := h (site :: earlier) site' later (by rw [hs]; rfl)
      rw [List.append_assoc, ← literals_append]
      exact hf

theorem AllFit.card_le {sites : List Site} (h : AllFit memory seen sites)
    (hs : seen.toFinset.card ≤ Instruction.maxIndex + 1) :
    (seen ++ literals sites).toFinset.card ≤ Instruction.maxIndex + 1 := by
  induction sites generalizing seen with
  | nil => simpa [literals] using hs
  | cons site sites ih =>
    have hx : literals (site :: sites) = literals [site] ++ literals sites :=
      literals_append [site] sites
    rw [hx, ← List.append_assoc]
    refine ih h.2 ?_
    cases hl : site.node.literal? with
    | none => simpa [literals, hl] using hs
    | some n =>
      obtain ⟨source, before, node⟩ := site
      cases node with
      | value raw v p tags =>
        have hfit := h.1
        simp only [Node.literal?] at hl
        subst hl
        simpa [literals, Node.literal?] using hfit n rfl
      | reference name p tags => cases hl
      | call head params tags => cases hl

/-- The result is an error exactly if one of the nodes does not fit, and then it is one of the
limits. Otherwise the values of the numerals are in the pool. -/
def Taken {α : Type} (memory : UInt16) (pool : α → Pool) (seen : List Nat) (sites : List Site) :
    Except CompileError α → Prop
  | .ok a => AllFit memory seen sites ∧ (pool a).Holds (seen ++ literals sites)
  | .error err => ¬ AllFit memory seen sites ∧ err.IsLimit

theorem taken_nil {α : Type} {pool : α → Pool} {a : α} (h : (pool a).Holds seen) :
    Taken memory pool seen [] (.ok a) :=
  ⟨trivial, by simpa [literals] using h⟩

theorem Taken.bind {α β : Type} {pool : α → Pool} {pool' : β → Pool} {xs ys : List Site}
    {x : Except CompileError α} {f : α → Except CompileError β} (h : Taken memory pool seen xs x)
    (hf : ∀ a, (pool a).Holds (seen ++ literals xs) →
      Taken memory pool' (seen ++ literals xs) ys (f a)) :
    Taken memory pool' seen (xs ++ ys) (x.bind f) := by
  cases x with
  | error err =>
    refine ⟨fun hall => ?_, h.2⟩
    exact h.1 (allFit_append.mp hall).1
  | ok a =>
    have hrest := hf a h.2
    rw [Except.bind]
    cases hb : f a with
    | error err =>
      rw [hb] at hrest
      exact ⟨fun hall => hrest.1 (allFit_append.mp hall).2, hrest.2⟩
    | ok b =>
      rw [hb] at hrest
      refine ⟨allFit_append.mpr ⟨h.1, hrest.1⟩, ?_⟩
      rw [literals_append, ← List.append_assoc]
      exact hrest.2

end Site

namespace Code

open Site (Taken)

variable {table : Table} {memory : UInt16} {source : Source} {before : List Label} {code : Code}
  {seen : List Nat}

theorem constant_taken (hp : code.pool.Holds seen) (raw : String) (n : Nat) (p : Position)
    (tags : List Label) :
    Taken memory Code.pool seen [⟨source, before, .value raw (some n) p tags⟩]
      (code.constant memory n) := by
  have hfits : Site.AllFit memory seen [⟨source, before, .value raw (some n) p tags⟩] ↔
      (seen ++ [n]).toFinset.card ≤ Instruction.maxIndex + 1 := by
    simp [Site.allFit_singleton, Site.Fits]
  have hsize := hp.size_eq
  by_cases hn : n ∈ seen
  · obtain ⟨i, ha, hi⟩ := hp.add_of_mem hn
    obtain ⟨w, hw⟩ := Instruction.memory?_of_le memory .constant hi
    have hset : (seen ++ [n]).toFinset = seen.toFinset := by simp [hn]
    rw [constant, ha]
    dsimp only
    rw [hw]
    refine ⟨?_, hp.valid, ?_, hp.room⟩
    · rw [hfits, hset, ← hsize]
      exact hp.room
    · intro v
      have hv : v = n → v ∈ seen := fun he => he ▸ hn
      simpa [emit, hp.mem, Site.literals, Node.literal?] using hv
  · have hcard : (seen ++ [n]).toFinset.card = code.pool.size + 1 := by
      have hset : (seen ++ [n]).toFinset = insert n seen.toFinset := by
        ext v
        simp
      rw [hset, Finset.card_insert_of_notMem (by simpa using hn), hsize]
    rw [hcard] at hfits
    rw [constant, hp.add_of_notMem hn]
    by_cases hroom : code.pool.size ≤ Instruction.maxIndex
    · obtain ⟨w, hw⟩ := Instruction.memory?_of_le memory .constant hroom
      rw [if_pos hroom]
      dsimp only
      rw [hw]
      exact ⟨hfits.mpr (Nat.succ_le_succ hroom), hp.push hn hroom⟩
    · rw [if_neg hroom]
      exact ⟨fun h => hroom (Nat.le_of_succ_le_succ (hfits.mp h)), trivial⟩

theorem reference_taken (hp : code.pool.Holds seen) {name : String}
    (hs : (Scope.after before).contains name = true) (p : Position) (tags : List Label) :
    Taken memory Code.pool seen [⟨source, before, .reference name p tags⟩]
      (code.reference memory (Scope.after before) name p) := by
  rw [Scope.contains_eq_isSome, Option.isSome_iff_exists] at hs
  obtain ⟨slot, hslot⟩ := hs
  have hfits : Site.AllFit memory seen [⟨source, before, .reference name p tags⟩] ↔
      slot ≤ Instruction.maxIndex := by
    simp [Site.allFit_singleton, Site.Fits, hslot]
  rw [reference, hslot]
  by_cases hle : slot ≤ Instruction.maxIndex
  · obtain ⟨w, hw⟩ := Instruction.memory?_of_le memory .stack hle
    dsimp only
    rw [hw]
    exact ⟨hfits.mpr hle, by simpa [Site.literals, Node.literal?, emit] using hp⟩
  · have hw : Instruction.memory? memory .stack slot = none := by
      simp [Instruction.memory?, Region.operand?, hle]
    dsimp only
    rw [hw]
    exact ⟨fun h => hle (hfits.mp h), trivial⟩

theorem call_taken (hp : code.pool.Holds seen) {head : Call} {number operand : UInt16}
    (ho : head.opcode = some number) (hr : head.operand = some operand) (params : List Node)
    (tags : List Label) :
    Taken memory Code.pool seen [⟨source, before, .call head params tags⟩]
      (code.call memory (Scope.after before) head) := by
  have hcan : code.canRead (Scope.after before) (Region.ofOperand operand).1
      (Region.ofOperand operand).2 = true ↔
        match Region.ofOperand operand with
        | (.constant, index) => index < seen.toFinset.card
        | (.stack, index) => index < before.length := by
    rcases Region.ofOperand operand with ⟨region, index⟩
    cases region with
    | constant => simp [canRead, hp.size_eq]
    | stack => simp [canRead, Scope.count_after]
  have hfits : Site.AllFit memory seen [⟨source, before, .call head params tags⟩] ↔
      (number = memory → code.canRead (Scope.after before) (Region.ofOperand operand).1
        (Region.ofOperand operand).2 = true) := by
    rw [hcan]
    simp [Site.allFit_singleton, Site.Fits, ho, hr]
  rw [call, ho, hr]
  dsimp only
  split
  · rename_i hbad
    simp only [Bool.and_eq_true, decide_eq_true_eq, Bool.not_eq_true'] at hbad
    refine ⟨fun h => ?_, trivial⟩
    rw [hfits.mp h hbad.1] at hbad
    cases hbad.2
  · rename_i hgood
    refine ⟨hfits.mpr fun hn => ?_, by simpa [Site.literals, Node.literal?, emit] using hp⟩
    simpa [hn] using hgood

theorem nodes_taken {nested : Bool} {ns : List Node}
    (ht : Node.Typed table (Scope.after before) nested ns) (source : Source)
    (hp : code.pool.Holds seen) :
    Taken memory Code.pool seen (Site.ofNodes source before ns)
      (code.nodes memory (Scope.after before) ns) := by
  induction ht generalizing code seen with
  | nil => exact Site.taken_nil hp
  | @value _ raw n p tags rest _ _ ih =>
    rw [nodes_cons, node, Site.ofNodes_cons, Node.inOrder]
    exact (constant_taken hp raw n p tags).bind fun _ hc => ih hc
  | @reference _ name p tags rest hs _ ih =>
    rw [nodes_cons, node, Site.ofNodes_cons, Node.inOrder]
    exact (reference_taken hp hs p tags).bind fun _ hc => ih hc
  | @call _ head params tags rest number op r _ ho hr _ _ _ _ ihp ih =>
    rw [nodes_cons, node_call, Site.ofNodes_cons, Node.inOrder, List.map_append]
    refine Taken.bind ((ihp hp).bind fun _ hc => ?_) fun _ hc => ih hc
    exact call_taken hc ho hr.operand params tags

theorem statements_taken {ss : List Statement} (hs : Statement.AllSound table before ss)
    (source : Source) (hp : code.pool.Holds seen) :
    Taken memory Code.pool seen (Site.ofStatements source before ss)
      (code.statements memory (Scope.after before) ss) := by
  induction ss generalizing before code seen with
  | nil => exact Site.taken_nil hp
  | cons s ss ih =>
    rw [statements_cons, Scope.declareAll_after, Site.ofStatements]
    exact (nodes_taken hs.1.typed source hp).bind fun _ hc => ih hs.2 hc

theorem sources_taken {ss : List Source}
    (hs : ∀ s ∈ ss, Statement.AllSound table [] s.statements) {pool : Pool} (hp : pool.Holds seen)
    (done : List (List Instruction)) :
    Taken memory Prod.snd seen (ss.flatMap fun s => Site.ofStatements s [] s.statements)
      (sources memory pool done ss) := by
  induction ss generalizing pool seen done with
  | nil => exact Site.taken_nil hp
  | cons s ss ih =>
    rw [List.forall_mem_cons] at hs
    have hstart : (⟨pool, []⟩ : Code).pool.Holds seen := hp
    rw [sources_cons, List.flatMap_cons]
    exact (statements_taken hs.1 s hstart).bind fun _ hc => ih hs.2 hc _

end Code

namespace Site

/-- Where a node stands: behind labels of its source, to which it refers. -/
structure WellPlaced (site : Site) : Prop where
  before : site.before <+: site.source.labels
  bound : ∀ name p tags, site.node = .reference name p tags →
    (Scope.after site.before).contains name = true

theorem wellPlaced_of_mem {table : Table} {source : Source} {before : List Label}
    {ss : List Statement} (hs : Statement.AllSound table before ss)
    (hl : before ++ ss.flatMap (·.labels) = source.labels) :
    ∀ site ∈ ofStatements source before ss, site.WellPlaced := by
  induction ss generalizing before with
  | nil => simp [ofStatements]
  | cons s ss ih =>
    rw [ofStatements, List.forall_mem_append]
    constructor
    · intro site hm
      obtain ⟨n, hn, rfl⟩ := List.mem_map.mp hm
      refine ⟨⟨_, hl⟩, ?_⟩
      rintro name p tags rfl
      exact hs.1.typed.contains_of_mem hn
    · exact ih hs.2 (by simpa using hl)

theorem allFit_iff {memory : UInt16} {sites : List Site} (h : ∀ site ∈ sites, site.WellPlaced) :
    AllFit memory [] sites ↔
      (literals sites).toFinset.card ≤ Instruction.maxIndex + 1 ∧
      (∀ site ∈ sites, ∀ name p tags, site.node = .reference name p tags →
        (site.source.labels.map (·.name)).idxOf name ≤ Instruction.maxIndex) ∧
      ∀ earlier site later, sites = earlier ++ site :: later →
        ∀ head params tags operand, site.node = .call head params tags →
          head.opcode = some memory → head.operand = some operand →
          match Region.ofOperand operand with
          | (.constant, index) => index < (literals earlier).toFinset.card
          | (.stack, index) => index < site.before.length := by
  constructor
  · intro hall
    refine ⟨by simpa using hall.card_le (by simp), ?_, ?_⟩
    · intro site hm name p tags hn
      obtain ⟨earlier, later, hs⟩ := List.append_of_mem hm
      have hfit := hall.fits hs
      have hw := h site hm
      have hc := hw.bound name p tags hn
      rw [Scope.contains_eq_isSome, Option.isSome_iff_exists] at hc
      obtain ⟨slot, hslot⟩ := hc
      rw [Scope.idxOf_of_slot? hw.before hslot]
      simp only [Fits, hn] at hfit
      exact hfit slot hslot
    · intro earlier site later hs head params tags operand hn ho hr
      have hfit := hall.fits hs
      simp only [Fits, hn, List.nil_append] at hfit
      exact hfit operand ho hr
  · rintro ⟨hroom, hslots, hreads⟩
    apply allFit_of_forall
    intro earlier site later hs
    have hm : site ∈ sites := by simp [hs]
    rw [List.nil_append]
    unfold Fits
    cases hn : site.node with
    | value raw v p tags =>
      intro n hv
      refine le_trans (Finset.card_le_card ?_) hroom
      have hone : literals [site] = [n] := by
        simp only [literals, List.filterMap_cons, hn, Node.literal?, Option.mem_def.mp hv]
        rfl
      have hsplit : literals sites = literals earlier ++ literals [site] ++ literals later := by
        rw [hs, ← literals_append, ← literals_append]
        simp
      rw [hsplit, hone]
      intro w hw
      simp at hw ⊢
      tauto
    | reference name p tags =>
      intro slot hslot
      rw [← Scope.idxOf_of_slot? (h site hm).before hslot]
      exact hslots site hm name p tags hn
    | call head params tags =>
      intro operand ho hr
      exact hreads earlier site later hs head params tags operand hn ho hr

end Site

namespace Document

theorem sites_wellPlaced {table : Table} {text : List Char}
    (h : (read table text).problems = []) :
    ∀ site ∈ (read table text).sites, site.WellPlaced := by
  intro site hm
  obtain ⟨source, hsource, hsite⟩ := List.mem_flatMap.mp hm
  exact Site.wellPlaced_of_mem (read_sound h source hsource) rfl site hsite

/-- A text without problems is compiled exactly if there is room for the values of its numerals,
its references are to slots in reach, and every explicit read finds its constant among those before
it or its slot among those of earlier statements. Nothing else can go wrong. -/
theorem compile_isOk_iff (table : Table) (memory : String) (number : UInt16) (op : Opcode)
    (hm : table.lookup memory = some (number, op)) (text : List Char)
    (h : (read table text).problems = []) :
    ((∃ code, (read table text).compile table memory = .ok code) ↔
      (Site.literals (read table text).sites).toFinset.card ≤ 32768 ∧
      (∀ site ∈ (read table text).sites, ∀ name p tags, site.node = .reference name p tags →
        (site.source.labels.map (·.name)).idxOf name ≤ 32767) ∧
      ∀ earlier site later, (read table text).sites = earlier ++ site :: later →
        ∀ head params tags operand, site.node = .call head params tags →
          head.opcode = some number → head.operand = some operand →
          match Region.ofOperand operand with
          | (.constant, index) => index < (Site.literals earlier).toFinset.card
          | (.stack, index) => index < site.before.length) ∧
    ∀ err, (read table text).compile table memory = .error err → err.IsLimit := by
  have htaken : Site.Taken number Prod.snd [] (read table text).sites
      (Code.sources number {} [] (read table text).sources) :=
    Code.sources_taken (read_sound h) Pool.holds_empty []
  have hiff : Site.AllFit number [] (read table text).sites ↔ _ :=
    Site.allFit_iff (sites_wellPlaced h)
  rw [compile_eq hm h]
  cases hc : Code.sources number {} [] (read table text).sources with
  | error err =>
    rw [hc] at htaken
    refine ⟨⟨?_, ?_⟩, ?_⟩
    · rintro ⟨code, hcode⟩
      cases hcode
    · intro hlimits
      exact absurd (hiff.mpr hlimits) htaken.1
    · rintro _ ⟨⟩
      exact htaken.2
  | ok result =>
    rw [hc] at htaken
    refine ⟨⟨fun _ => hiff.mp htaken.1, fun _ => ⟨_, rfl⟩⟩, ?_⟩
    rintro _ ⟨⟩

theorem compile_isOk_iff_dangling :
    let d := read Table.builtin "_: read-memory<0 1>(), _: 1;".toList
    d.problems = [] ∧ Site.literals d.sites = [1] ∧
      ¬ ∃ code, d.compile Table.builtin "read-memory" = .ok code := by
  intro d
  have hd : d.problems = [] ∧ Site.literals d.sites = [1] ∧ (match d.sites with
      | ⟨_, _, .call head _ _⟩ :: _ => head.opcode == some 0 && head.operand == some 1
      | ⟨_, _, .value ..⟩ :: _ | ⟨_, _, .reference ..⟩ :: _ | [] => false) = true := by
    decide +kernel
  obtain ⟨hp, hl, hsites⟩ := hd
  refine ⟨hp, hl, fun hcode => ?_⟩
  obtain ⟨op, hm, -⟩ := Table.lookup_builtin_memory
  have hreads := ((compile_isOk_iff Table.builtin "read-memory" 0 op hm _ hp).1.mp hcode).2.2
  split at hsites
  · rename_i source before head params tags later heq
    simp only [Bool.and_eq_true, beq_iff_eq] at hsites
    have hread := hreads [] _ later heq head params tags _ rfl hsites.1 hsites.2
    exact absurd hread (Nat.lt_irrefl 0)
  all_goals cases hsites

end Document

end Wordcode
