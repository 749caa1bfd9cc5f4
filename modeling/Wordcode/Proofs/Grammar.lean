import Wordcode.Proofs.Lexemes

namespace Wordcode.Formula

/-- What a part of a formula can be, from the loosest to the tightest. -/
inductive Rank where
  | sum
  | product
  | unary
  | primary

namespace Op

def symbol : Op → Char
  | .add => '+'
  | .sub => '-'
  | .mul => '*'
  | .div => '/'

def rank : Op → Rank
  | .add => .sum
  | .sub => .sum
  | .mul => .product
  | .div => .product

end Op

/-- The grammar of formulas, with the expression that each derivation builds. A sum is a product, or
a sum with one more product behind it, so that operators associate to the left; products likewise. -/
inductive Derives : Rank → List Lexeme → Expr → Prop
  | product {ls : List Lexeme} {e : Expr} (h : Derives .product ls e) : Derives .sum ls e
  | plus {op : Op} {ls rs : List Lexeme} {l r : Expr} (hop : op.rank = .sum)
      (hl : Derives .sum ls l) (hr : Derives .product rs r) :
      Derives .sum (ls ++ .symbol op.symbol :: rs) (.binary op l r)
  | unary {ls : List Lexeme} {e : Expr} (h : Derives .unary ls e) : Derives .product ls e
  | times {op : Op} {ls rs : List Lexeme} {l r : Expr} (hop : op.rank = .product)
      (hl : Derives .product ls l) (hr : Derives .unary rs r) :
      Derives .product (ls ++ .symbol op.symbol :: rs) (.binary op l r)
  | primary {ls : List Lexeme} {e : Expr} (h : Derives .primary ls e) : Derives .unary ls e
  | neg {ls : List Lexeme} {e : Expr} (h : Derives .unary ls e) :
      Derives .unary (.symbol '-' :: ls) (.neg e)
  | number {digits : List Char} (h : (ofDigits 10 digits : Int) ≤ maxValue) :
      Derives .primary [.number digits] (.number (ofDigits 10 digits))
  | name {letters : List Char} : Derives .primary [.name letters] .var
  | parens {ls : List Lexeme} {e : Expr} (h : Derives .sum ls e) :
      Derives .primary (.symbol '(' :: (ls ++ [.symbol ')'])) e

theorem Op.symbol_mem_symbols (op : Op) : op.symbol ∈ symbols := by
  cases op <;> decide

namespace Derives

variable {rank : Rank} {ls : List Lexeme} {e : Expr}

theorem mem_symbols (h : Derives rank ls e) {c : Char} (hc : .symbol c ∈ ls) : c ∈ symbols := by
  induction h with
  | product h ih | unary h ih | primary h ih => exact ih hc
  | @plus op ls rs l r hop hl hr ihl ihr | @times op ls rs l r hop hl hr ihl ihr =>
    simp only [List.mem_append, List.mem_cons, Lexeme.symbol.injEq] at hc
    obtain hc | rfl | hc := hc
    · exact ihl hc
    · exact op.symbol_mem_symbols
    · exact ihr hc
  | neg h ih =>
    simp only [List.mem_cons, Lexeme.symbol.injEq] at hc
    obtain rfl | hc := hc
    · decide
    · exact ih hc
  | number h => simp at hc
  | name => simp at hc
  | parens h ih =>
    simp only [List.mem_cons, List.mem_append, Lexeme.symbol.injEq, List.not_mem_nil, or_false] at hc
    obtain rfl | hc | rfl := hc
    · decide
    · exact ih hc
    · decide

theorem isChain (h : Derives rank ls e) : ls.IsChain Lexeme.Parted := by
  have hsymbol : ∀ {c : Char} {ks : List Lexeme}, ks.IsChain Lexeme.Parted →
      (Lexeme.symbol c :: ks).IsChain Lexeme.Parted :=
    fun hks => List.isChain_cons.mpr ⟨fun _ _ => .inl trivial, hks⟩
  have hmiddle : ∀ {c : Char} {ks ms : List Lexeme}, ks.IsChain Lexeme.Parted →
      ms.IsChain Lexeme.Parted → (ks ++ Lexeme.symbol c :: ms).IsChain Lexeme.Parted := by
    intro c ks ms hks hms
    refine List.isChain_append.mpr ⟨hks, hsymbol hms, fun k _ m hm => .inr ?_⟩
    obtain rfl : Lexeme.symbol c = m := by simpa using hm
    trivial
  induction h with
  | product h ih | unary h ih | primary h ih => exact ih
  | plus hop hl hr ihl ihr | times hop hl hr ihl ihr => exact hmiddle ihl ihr
  | neg h ih => exact hsymbol ih
  | number h => exact .singleton _
  | name => exact .singleton _
  | parens h ih => exact hsymbol (hmiddle ih .nil)

end Derives

/-- Tokens with these lexemes take the reader from the one state to the other. -/
def Reads (s : State) (ls : List Lexeme) (s' : State) : Prop :=
  ∀ ts : List Token, ts.map Token.lexeme = ls → ts.foldlM State.step s = .ok s'

namespace Reads

variable {s s' s'' : State} {ks ls : List Lexeme}

theorem single {l : Lexeme} (h : ∀ t : Token, t.lexeme = l → s.step t = .ok s') :
    Reads s [l] s' := by
  intro ts hts
  obtain ⟨t, rest, rfl, ht, hrest⟩ := List.map_eq_cons_iff.mp hts
  obtain rfl := List.map_eq_nil_iff.mp hrest
  rw [List.foldlM_cons, h t ht]
  rfl

theorem append (h : Reads s ks s') (h' : Reads s' ls s'') : Reads s (ks ++ ls) s'' := by
  intro ts hts
  obtain ⟨front, back, rfl, hf, hb⟩ := List.map_eq_append_iff.mp hts
  rw [List.foldlM_append, h front hf]
  exact h' back hb

theorem cons {l : Lexeme} (h : ∀ t : Token, t.lexeme = l → s.step t = .ok s')
    (h' : Reads s' ls s'') : Reads s (l :: ls) s'' :=
  (single h).append h'

end Reads

theorem Level.signed_succ (n : Nat) (e : Expr) : signed (n + 1) e = signed n (.neg e) := by
  induction n with
  | zero => rfl
  | succ n ih => exact congrArg Expr.neg ih

theorem step_sum {op : Op} (hop : op.rank = .sum) {t : Token} (ht : t.lexeme = .symbol op.symbol)
    (outer : List Level) (level : Level) (term : Expr) :
    (State.operator outer level term).step t =
      .ok (.operand outer { sum := some (level.total term, op) }) := by
  cases op with
  | add | sub => simp [State.step, State.operator?, ht, Op.symbol]
  | mul | div => cases hop

theorem step_product {op : Op} (hop : op.rank = .product) {t : Token}
    (ht : t.lexeme = .symbol op.symbol) (outer : List Level) (level : Level) (term : Expr) :
    (State.operator outer level term).step t =
      .ok (.operand outer { sum := level.sum, product := some (term, op) }) := by
  cases op with
  | add | sub => cases hop
  | mul | div => simp [State.step, State.operator?, ht, Op.symbol]

/-- What the reader does with the lexemes of a part. A primary or unary is an operand wherever it
stands; a product is one at the start of a product, and a sum at the start of a sum. -/
def Completes : Rank → List Lexeme → Expr → Prop
  | .sum, ls, e => ∀ outer, ∃ level term, level.total term = e ∧
      Reads (.operand outer {}) ls (.operator outer level term)
  | .product, ls, e => ∀ outer sum, ∃ level : Level, level.sum = sum ∧
      Reads (.operand outer { sum := sum }) ls (.operator outer level e)
  | _, ls, e => ∀ outer (level : Level), ∃ level' : Level, level'.sum = level.sum ∧
      Reads (.operand outer level) ls (.operator outer level' (level.term e))

theorem Derives.completes {rank : Rank} {ls : List Lexeme} {e : Expr} (h : Derives rank ls e) :
    Completes rank ls e := by
  induction h with
  | product h ih =>
    intro outer
    obtain ⟨level, hsum, hreads⟩ := ih outer none
    exact ⟨level, _, by rw [Level.total, hsum]; rfl, hreads⟩
  | @plus op ls rs l r hop hl hr ihl ihr =>
    intro outer
    obtain ⟨level, term, rfl, hleft⟩ := ihl outer
    obtain ⟨level', hsum, hright⟩ := ihr outer (some (level.total term, op))
    refine ⟨level', r, by rw [Level.total, hsum]; rfl, hleft.append (.cons ?_ hright)⟩
    exact fun t ht => step_sum hop ht outer level term
  | unary h ih =>
    intro outer sum
    exact ih outer { sum := sum }
  | @times op ls rs l r hop hl hr ihl ihr =>
    intro outer sum
    obtain ⟨level, rfl, hleft⟩ := ihl outer sum
    obtain ⟨level', hsum, hright⟩ := ihr outer { sum := level.sum, product := some (l, op) }
    refine ⟨level', hsum, hleft.append (.cons ?_ hright)⟩
    exact fun t ht => step_product hop ht outer level l
  | primary h ih => exact ih
  | @neg ls e h ih =>
    intro outer level
    obtain ⟨level', hsum, hreads⟩ := ih outer { level with minus := level.minus + 1 }
    rw [Level.term, Level.signed_succ] at hreads
    refine ⟨level', hsum, .cons ?_ hreads⟩
    intro t ht
    simp [State.step, State.operand?, ht]
  | number h =>
    intro outer level
    refine ⟨level, rfl, .single fun t ht => ?_⟩
    simp [State.step, State.operand?, ht, h]
  | name =>
    intro outer level
    refine ⟨level, rfl, .single fun t ht => ?_⟩
    simp [State.step, State.operand?, ht]
  | parens h ih =>
    intro outer level
    obtain ⟨inner, term, rfl, hreads⟩ := ih (level :: outer)
    refine ⟨level, rfl, .cons ?_ (hreads.append (.single ?_))⟩
    · intro t ht
      simp [State.step, State.operand?, ht]
    · intro t ht
      simp [State.step, State.operator?, ht]

/-- The lexemes of a sum or product that waits for its right operand. -/
inductive Waits (rank : Rank) : Option (Expr × Op) → List Lexeme → Prop
  | none : Waits rank none []
  | some {op : Op} {l : Expr} {ls : List Lexeme} (hop : op.rank = rank) (h : Derives rank ls l) :
      Waits rank (some (l, op)) (ls ++ [.symbol op.symbol])

/-- The lexemes inside the innermost parentheses, up to an operand. -/
def Level.Holds (level : Level) (ls : List Lexeme) : Prop :=
  ∃ ss ps, Waits .sum level.sum ss ∧ Waits .product level.product ps ∧
    ls = ss ++ (ps ++ List.replicate level.minus (.symbol '-'))

/-- The lexemes up to the innermost open parenthesis. -/
inductive Opens : List Level → List Lexeme → Prop
  | nil : Opens [] []
  | cons {level : Level} {outer : List Level} {ls ks : List Lexeme} (h : Opens outer ls)
      (hk : level.Holds ks) : Opens (level :: outer) (ls ++ (ks ++ [.symbol '(']))

/-- The lexemes that lead to a state. -/
inductive State.Holds : State → List Lexeme → Prop
  | operand {outer : List Level} {level : Level} {ls ks : List Lexeme} (h : Opens outer ls)
      (hk : level.Holds ks) : Holds (.operand outer level) (ls ++ ks)
  | operator {outer : List Level} {level : Level} {term : Expr} {ls ss ps : List Lexeme}
      (h : Opens outer ls) (hs : Waits .sum level.sum ss) (hp : Derives .product ps term) :
      Holds (.operator outer level term) (ls ++ (ss ++ ps))

theorem Waits.sum {left : Option (Expr × Op)} {e : Expr} {ss ps : List Lexeme}
    (hs : Waits .sum left ss) (h : Derives .product ps e) :
    Derives .sum (ss ++ ps) (Level.join left e) := by
  cases hs with
  | none => exact .product h
  | some hop hl => simpa [Level.join] using hl.plus hop h

theorem Waits.product {left : Option (Expr × Op)} {e : Expr} {ps us : List Lexeme}
    (hp : Waits .product left ps) (h : Derives .unary us e) :
    Derives .product (ps ++ us) (Level.join left e) := by
  cases hp with
  | none => exact .unary h
  | some hop hl => simpa [Level.join] using hl.times hop h

theorem Derives.signed {us : List Lexeme} {e : Expr} (h : Derives .unary us e) (n : Nat) :
    Derives .unary (List.replicate n (.symbol '-') ++ us) (Level.signed n e) := by
  induction n with
  | zero => exact h
  | succ n ih => exact ih.neg

theorem State.Holds.of_operand {outer : List Level} {level : Level} {e : Expr}
    {ls ks us : List Lexeme} (h : Opens outer ls) (hk : level.Holds ks) (hu : Derives .unary us e) :
    Holds (.operator outer level (level.term e)) (ls ++ (ks ++ us)) := by
  obtain ⟨ss, ps, hs, hp, rfl⟩ := hk
  simpa [Level.term] using Holds.operator h hs (hp.product (hu.signed level.minus))

theorem Opens.operand {outer : List Level} {ls : List Lexeme} (h : Opens outer ls) :
    State.Holds (.operand outer {}) ls := by
  have hempty : Level.Holds {} [] := ⟨[], [], .none, .none, rfl⟩
  simpa using State.Holds.operand h hempty

namespace State.Holds

variable {outer : List Level} {level : Level} {term : Expr} {s s' : State} {ls : List Lexeme}
  {t : Token}

theorem operand? {ks : List Lexeme} (h : Opens outer ls) (hk : level.Holds ks)
    (hs : State.operand? outer level t = .ok s') : s'.Holds (ls ++ (ks ++ [t.lexeme])) := by
  simp only [State.operand?] at hs
  split at hs
  · rename_i digits ht
    split at hs
    · rename_i hn
      cases hs
      rw [ht]
      exact .of_operand h hk (.primary (.number hn))
    · cases hs
  · rename_i letters ht
    cases hs
    rw [ht]
    exact .of_operand h hk (.primary .name)
  · rename_i ht
    cases hs
    obtain ⟨ss, ps, hss, hps, rfl⟩ := hk
    rw [ht]
    exact .operand h ⟨ss, ps, hss, hps, by simp [List.replicate_succ']⟩
  · rename_i ht
    cases hs
    rw [ht]
    exact (Opens.cons h hk).operand
  · cases hs

theorem operator? {ss ps : List Lexeme} (h : Opens outer ls) (hss : Waits .sum level.sum ss)
    (hp : Derives .product ps term) (hs : State.operator? outer level term t = .ok s') :
    s'.Holds (ls ++ (ss ++ (ps ++ [t.lexeme]))) := by
  have hsum : Derives .sum (ss ++ ps) (level.total term) := hss.sum hp
  have hplus : ∀ {op : Op}, op.rank = .sum →
      Holds (.operand outer { sum := some (level.total term, op) })
        (ls ++ (ss ++ (ps ++ [.symbol op.symbol]))) :=
    fun hop => .operand h ⟨_, [], .some hop hsum, .none, by simp⟩
  have htimes : ∀ {op : Op}, op.rank = .product →
      Holds (.operand outer { sum := level.sum, product := some (term, op) })
        (ls ++ (ss ++ (ps ++ [.symbol op.symbol]))) :=
    fun hop => .operand h ⟨ss, _, hss, .some hop hp, by simp⟩
  unfold State.operator? at hs
  split at hs
  · rename_i ht
    cases hs
    rw [ht]
    exact hplus rfl
  · rename_i ht
    cases hs
    rw [ht]
    exact hplus rfl
  · rename_i ht
    cases hs
    rw [ht]
    exact htimes rfl
  · rename_i ht
    cases hs
    rw [ht]
    exact htimes rfl
  · rename_i around outer ht
    cases hs
    rw [ht]
    cases h with
    | cons ho hk => simpa using of_operand ho hk (.primary (.parens hsum))
  · cases hs
  · cases hs

theorem step (h : s.Holds ls) (hs : s.step t = .ok s') : s'.Holds (ls ++ [t.lexeme]) := by
  cases h with
  | operand h hk =>
    rw [List.append_assoc]
    exact operand? h hk hs
  | operator h hss hp =>
    rw [List.append_assoc, List.append_assoc]
    exact operator? h hss hp hs

theorem foldlM {ts : List Token} (h : s.Holds ls) (hs : ts.foldlM State.step s = .ok s') :
    s'.Holds (ls ++ ts.map Token.lexeme) := by
  induction ts generalizing s ls with
  | nil =>
    cases hs
    simpa using h
  | cons t ts ih =>
    rw [List.foldlM_cons] at hs
    cases ht : s.step t with
    | error err =>
      rw [ht] at hs
      cases hs
    | ok s₁ =>
      rw [ht] at hs
      simpa using ih (h.step ht) hs

theorem finish {e : Expr} (h : s.Holds ls) (hs : s.finish = .ok e) : Derives .sum ls e := by
  cases h with
  | operand h hk => cases hs
  | operator h hss hp =>
    cases h with
    | nil =>
      cases hs
      exact hss.sum hp
    | cons h hk => cases hs

end State.Holds

/-- A text is read as an expression just when its lexemes are derived with that expression. -/
theorem Expr.read_eq_ok_iff {text : List Char} {e : Expr} :
    Expr.read text = .ok e ↔ ∃ ls, Lexes text ls ∧ Derives .sum ls e := by
  constructor
  · intro h
    unfold Expr.read at h
    cases hs : (scan 0 .none [] text).foldlM State.step (.operand [] {}) with
    | error err =>
      rw [hs] at h
      cases h
    | ok s =>
      rw [hs] at h
      have hd : Derives .sum ((scan 0 .none [] text).map Token.lexeme) e :=
        (Opens.nil.operand.foldlM hs).finish h
      have hsymbols : ∀ t ∈ scan 0 .none [] text, ∀ c, t.lexeme = .symbol c → c ∈ symbols := by
        intro t ht c hc
        apply hd.mem_symbols
        rw [← hc]
        exact List.mem_map_of_mem ht
      obtain ⟨ls, hls⟩ := exists_lexes hsymbols
      rw [hls.scan] at hd
      exact ⟨ls, hls, hd⟩
  · rintro ⟨ls, hls, hd⟩
    obtain ⟨level, term, rfl, hreads⟩ := hd.completes []
    have hs := hreads (scan 0 .none [] text) (hls.scan 0 [])
    rw [Expr.read, hs]
    rfl

end Wordcode.Formula
