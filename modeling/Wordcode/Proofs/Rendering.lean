import Wordcode.Proofs.Grammar

namespace Wordcode.Formula

def Rank.height : Rank → Nat
  | .sum => 0
  | .product => 1
  | .unary => 2
  | .primary => 3

def Op.rightRank : Op → Rank
  | .add => .product
  | .sub => .product
  | .mul => .unary
  | .div => .unary

def Expr.Fits : Expr → Prop
  | .number n => (n : Int) ≤ maxValue
  | .var => True
  | .neg e => e.Fits
  | .binary _ l r => l.Fits ∧ r.Fits

/-- The lexemes write the expression at a place for parts of the given rank. What is too loose for
its place stands in parentheses, and anything else may. -/
inductive Renders : Rank → Expr → List Lexeme → Prop
  | number {rank : Rank} {n : Nat} {digits : List Char} (hn : ofDigits 10 digits = n)
      (h : (n : Int) ≤ maxValue) : Renders rank (.number n) [.number digits]
  | var {rank : Rank} {letters : List Char} : Renders rank .var [.name letters]
  | neg {rank : Rank} {e : Expr} {ls : List Lexeme} (hrank : rank.height ≤ Rank.unary.height)
      (h : Renders .unary e ls) : Renders rank (.neg e) (.symbol '-' :: ls)
  | binary {rank : Rank} {op : Op} {l r : Expr} {ls rs : List Lexeme}
      (hrank : rank.height ≤ op.rank.height) (hl : Renders op.rank l ls)
      (hr : Renders op.rightRank r rs) :
      Renders rank (.binary op l r) (ls ++ .symbol op.symbol :: rs)
  | parens {rank : Rank} {e : Expr} {ls : List Lexeme} (h : Renders .sum e ls) :
      Renders rank e (.symbol '(' :: (ls ++ [.symbol ')']))

namespace Derives

variable {rank rank' : Rank} {ls rs : List Lexeme} {e l r : Expr}

theorem fits (h : Derives rank ls e) : e.Fits := by
  induction h with
  | product h ih | unary h ih | primary h ih | neg h ih | parens h ih => exact ih
  | plus hop hl hr ihl ihr | times hop hl hr ihl ihr => exact ⟨ihl, ihr⟩
  | number h => exact h
  | name => trivial

theorem loosen (h : Derives rank' ls e) (hle : rank.height ≤ rank'.height) :
    Derives rank ls e := by
  cases rank' with
  | sum =>
    cases rank with
    | sum => exact h
    | product | unary | primary => simp [Rank.height] at hle
  | product =>
    cases rank with
    | sum => exact .product h
    | product => exact h
    | unary | primary => simp [Rank.height] at hle
  | unary =>
    cases rank with
    | sum => exact .product (.unary h)
    | product => exact .unary h
    | unary => exact h
    | primary => simp [Rank.height] at hle
  | primary =>
    cases rank with
    | sum => exact .product (.unary (.primary h))
    | product => exact .unary (.primary h)
    | unary => exact .primary h
    | primary => exact h

theorem loosen_primary (h : Derives .primary ls e) : Derives rank ls e :=
  h.loosen (by cases rank <;> decide)

theorem binary {op : Op} (hl : Derives op.rank ls l) (hr : Derives op.rightRank rs r) :
    Derives op.rank (ls ++ .symbol op.symbol :: rs) (.binary op l r) := by
  cases op with
  | add | sub => exact .plus rfl hl hr
  | mul | div => exact .times rfl hl hr

end Derives

theorem Renders.derives {rank : Rank} {e : Expr} {ls : List Lexeme} (h : Renders rank e ls) :
    Derives rank ls e := by
  induction h with
  | number hn h =>
    subst hn
    exact (Derives.number h).loosen_primary
  | var => exact Derives.name.loosen_primary
  | neg hrank h ih => exact ih.neg.loosen hrank
  | binary hrank hl hr ihl ihr => exact (ihl.binary ihr).loosen hrank
  | parens h ih => exact ih.parens.loosen_primary

theorem Spaced.of_isProper {ls : List Lexeme} (h : ∀ l ∈ ls, l.IsProper) :
    Spaced ls (ls.flatMap Lexeme.chars) := by
  induction ls with
  | nil => exact .nil (by simp)
  | cons l ls ih =>
    rw [List.forall_mem_cons] at h
    exact @Spaced.cons [] _ l ls (by simp) h.1 (ih h.2)

theorem Renders.exists_parens {rank inner : Rank} {e : Expr} {ls : List Lexeme}
    (h : ∀ {place : Rank}, place.height ≤ inner.height → Renders place e ls)
    (hproper : ∀ l ∈ ls, l.IsProper) : ∃ ls, Renders rank e ls ∧ ∀ l ∈ ls, l.IsProper := by
  by_cases hle : rank.height ≤ inner.height
  · exact ⟨ls, h hle, hproper⟩
  · refine ⟨_, .parens (h (Nat.zero_le _)), ?_⟩
    simpa [List.forall_mem_cons, Lexeme.IsProper, symbols, or_imp, forall_and] using hproper

theorem Expr.Fits.exists_renders {e : Expr} (h : e.Fits) (rank : Rank) :
    ∃ ls, Renders rank e ls ∧ ∀ l ∈ ls, l.IsProper := by
  induction e generalizing rank with
  | number n =>
    refine ⟨_, .number (ofDigits_decimal n) h, List.forall_mem_singleton.mpr ?_⟩
    exact ⟨decimal_ne_nil n, fun c hc => isDecimal_of_isDigit (isDigit_of_mem_decimal hc)⟩
  | var =>
    refine ⟨[.name ['x']], .var, List.forall_mem_singleton.mpr ⟨'x', [], rfl, by decide, ?_⟩⟩
    exact fun d hd => nomatch hd
  | neg e ih =>
    obtain ⟨ls, hls, hproper⟩ := ih h .unary
    refine Renders.exists_parens (fun hle => .neg hle hls) ?_
    rw [List.forall_mem_cons]
    exact ⟨Op.sub.symbol_mem_symbols, hproper⟩
  | binary op l r ihl ihr =>
    obtain ⟨ls, hls, hlproper⟩ := ihl h.1 op.rank
    obtain ⟨rs, hrs, hrproper⟩ := ihr h.2 op.rightRank
    refine Renders.exists_parens (fun hle => .binary hle hls hrs) ?_
    rw [List.forall_mem_append, List.forall_mem_cons]
    exact ⟨hlproper, op.symbol_mem_symbols, hrproper⟩

theorem read_eq_ok_iff_expr {source : String} {f : Formula} :
    read source = .ok f ↔ f.source = source ∧ Expr.read source.toList = .ok f.expr := by
  rw [read]
  cases Expr.read source.toList with
  | error err => simp
  | ok e =>
    cases f
    simp [eq_comm]

/-- A text is a formula just when its longest tokens are derived by the grammar, and then it has the
expression of that derivation. Whatever writes an expression, with any blanks, is read as that
expression, and there is something that writes it unless a number in it is too large. -/
theorem read_eq_ok_iff_derives :
    (∀ (source : String) (f : Formula), read source = .ok f ↔
      f.source = source ∧ ∃ ls, Lexes source.toList ls ∧ Derives .sum ls f.expr) ∧
    (∀ (e : Expr) (ls : List Lexeme) (source : String), Renders .sum e ls →
      Spaced ls source.toList → read source = .ok ⟨source, e⟩) ∧
    ∀ e : Expr, (∃ ls cs, Renders .sum e ls ∧ Spaced ls cs) ↔ e.Fits := by
  refine ⟨?_, ?_, ?_⟩
  · intro source f
    rw [read_eq_ok_iff_expr, Expr.read_eq_ok_iff]
  · intro e ls source hrenders hspaced
    rw [read_eq_ok_iff_expr, Expr.read_eq_ok_iff]
    exact ⟨rfl, ls, hspaced.lexes hrenders.derives.isChain, hrenders.derives⟩
  · intro e
    constructor
    · rintro ⟨ls, cs, hrenders, -⟩
      exact hrenders.derives.fits
    · intro h
      obtain ⟨ls, hrenders, hproper⟩ := h.exists_renders .sum
      exact ⟨ls, _, hrenders, .of_isProper hproper⟩

theorem read_eq_ok_iff_derives_signed :
    let e : Expr := .binary .mul (.binary .div (.neg (.binary .sub (.number 7) .var)) .var) (.number 2)
    (∃ ls, Lexes "-(07 - x)/y_1*2".toList ls ∧ Derives .sum ls e) ∧
      (¬ ∃ ls e, Lexes "1 2".toList ls ∧ Derives .sum ls e) ∧
      (¬ ∃ ls e, Lexes "9223372036854775808".toList ls ∧ Derives .sum ls e) ∧
      read "\u3000-\tx " = .ok ⟨"\u3000-\tx ", .neg .var⟩ := by
  intro e
  have hrefused : ∀ source : String, (read source).isOk = false →
      ¬ ∃ ls e, Lexes source.toList ls ∧ Derives .sum ls e := by
    rintro source h ⟨ls, e, hls, he⟩
    rw [(read_eq_ok_iff_derives.1 source ⟨source, e⟩).mpr ⟨rfl, ls, hls, he⟩] at h
    cases h
  have hread : read "-(07 - x)/y_1*2" = .ok ⟨"-(07 - x)/y_1*2", e⟩ := by decide +kernel
  refine ⟨((read_eq_ok_iff_derives.1 _ _).mp hread).2, hrefused _ (by decide +kernel),
    hrefused _ (by decide +kernel), ?_⟩
  apply read_eq_ok_iff_derives.2.1 _ [.symbol '-', .name ['x']]
  · exact .neg (by decide) .var
  · have hblank : ∀ {b : Char}, isBlank b = true → ∀ c ∈ [b], isBlank c = true :=
      fun h => List.forall_mem_singleton.mpr h
    refine @Spaced.cons ['\u3000'] _ _ _ (hblank (by decide)) Op.sub.symbol_mem_symbols ?_
    refine @Spaced.cons ['\t'] _ _ _ (hblank (by decide)) ⟨'x', [], rfl, by decide, by simp⟩ ?_
    exact .nil (hblank (by decide))

end Wordcode.Formula
