import Wordcode.Proofs.Rendering

namespace Wordcode.Formula

def InRange (n : Int) : Prop :=
  -2 ^ 63 ≤ n ∧ n ≤ 2 ^ 63 - 1

instance (n : Int) : Decidable (InRange n) :=
  inferInstanceAs (Decidable (_ ∧ _))

/-- The result over all integers, unless there is none. Division rounds toward zero. -/
def Op.exact : Op → Int → Int → Option Int
  | .add, a, b => some (a + b)
  | .sub, a, b => some (a - b)
  | .mul, a, b => some (a * b)
  | .div, a, b => if b = 0 then none else some (a.tdiv b)

namespace Expr

def exact (value : Int) : Expr → Option Int
  | .number n => some n
  | .var => some value
  | .neg e => (e.exact value).map fun n => -n
  | .binary op l r => (l.exact value).bind fun a => (r.exact value).bind fun b => op.exact a b

/-- The expression and its parts: each behind its own parts, from left to right. -/
def postorder : Expr → List Expr
  | .number n => [.number n]
  | .var => [.var]
  | .neg e => e.postorder ++ [.neg e]
  | .binary op l r => l.postorder ++ (r.postorder ++ [.binary op l r])

def dividesByZero (value : Int) : Expr → Bool
  | .binary .div _ r => r.exact value == some 0
  | _ => false

/-- What is wrong with the last operation of an expression. -/
def failure? (value : Int) (e : Expr) : Option EvalError :=
  if e.dividesByZero value then some .divisionByZero
  else if (e.exact value).any fun n => !decide (InRange n) then some .overflow
  else none

/-- All parts of the expression have values in range. -/
def StaysInRange (value : Int) (e : Expr) : Prop :=
  ∀ part ∈ e.postorder, ∃ n, part.exact value = some n ∧ InRange n

end Expr

theorem checked_of_inRange {n : Int} (h : InRange n) : checked n = .ok n :=
  if_pos h

theorem checked_of_not_inRange {n : Int} (h : ¬ InRange n) : checked n = .error .overflow :=
  if_neg h

theorem Op.apply_of_exact {op : Op} {a b n : Int} (h : op.exact a b = some n) :
    op.apply a b = checked n := by
  cases op with
  | add | sub | mul =>
    cases h
    rfl
  | div =>
    simp only [exact] at h
    split at h
    · cases h
    · rename_i hb
      cases h
      exact if_neg hb

theorem Op.eq_of_exact_eq_none {op : Op} {a b : Int} (h : op.exact a b = none) :
    op = .div ∧ b = 0 := by
  cases op with
  | add | sub | mul => cases h
  | div =>
    simp only [exact] at h
    split at h
    · rename_i hb
      exact ⟨rfl, hb⟩
    · cases h

namespace Expr

variable {value n : Int} {e : Expr}

theorem dividesByZero_of_exact (h : e.exact value = some n) : e.dividesByZero value = false := by
  cases e with
  | number m => rfl
  | var => rfl
  | neg e => rfl
  | binary op l r =>
    cases op with
    | add | sub | mul => rfl
    | div =>
      rw [dividesByZero, beq_eq_false_iff_ne]
      intro hr
      simp [exact, hr, Op.exact] at h

theorem failure?_of_inRange (h : e.exact value = some n) (hn : InRange n) :
    e.failure? value = none := by
  simp [failure?, dividesByZero_of_exact h, h, hn]

theorem failure?_of_not_inRange (h : e.exact value = some n) (hn : ¬ InRange n) :
    e.failure? value = some .overflow := by
  simp [failure?, dividesByZero_of_exact h, h, hn]

theorem StaysInRange.findSome?_eq_none (h : e.StaysInRange value) :
    e.postorder.findSome? (failure? value) = none := by
  rw [List.findSome?_eq_none_iff]
  intro part hpart
  obtain ⟨n, hn, hrange⟩ := h part hpart
  exact failure?_of_inRange hn hrange

/-- Evaluation either follows the exact values through all parts or stops at the first part that
fails. -/
theorem eval_cases (hv : InRange value) (he : e.Fits) :
    (∃ n, e.eval value = .ok n ∧ e.exact value = some n ∧ e.StaysInRange value) ∨
      ∃ err, e.eval value = .error err ∧ e.postorder.findSome? (failure? value) = some err := by
  induction e with
  | number n =>
    have hn : InRange n := ⟨by omega, he⟩
    refine .inl ⟨n, rfl, rfl, List.forall_mem_singleton.mpr ⟨n, rfl, hn⟩⟩
  | var => exact .inl ⟨value, rfl, rfl, List.forall_mem_singleton.mpr ⟨value, rfl, hv⟩⟩
  | neg e ih =>
    obtain ⟨n, heval, hexact, hstays⟩ | ⟨err, heval, hfind⟩ := ih he
    · have hneg : (Expr.neg e).exact value = some (-n) := by simp [exact, hexact]
      by_cases hn : InRange (-n)
      · refine .inl ⟨-n, by simp [eval, heval, checked_of_inRange hn], hneg, ?_⟩
        exact List.forall_mem_append.mpr ⟨hstays, List.forall_mem_singleton.mpr ⟨-n, hneg, hn⟩⟩
      · refine .inr ⟨.overflow, by simp [eval, heval, checked_of_not_inRange hn], ?_⟩
        simp [postorder, hstays.findSome?_eq_none, failure?_of_not_inRange hneg hn]
    · exact .inr ⟨err, by simp [eval, heval], by simp [postorder, hfind]⟩
  | binary op l r ihl ihr =>
    obtain ⟨a, hleval, hlexact, hlstays⟩ | ⟨err, heval, hfind⟩ := ihl he.1
    · obtain ⟨b, hreval, hrexact, hrstays⟩ | ⟨err, heval, hfind⟩ := ihr he.2
      · have heval : (Expr.binary op l r).eval value = op.apply a b := by simp [eval, hleval, hreval]
        have hexact : (Expr.binary op l r).exact value = op.exact a b := by
          simp [exact, hlexact, hrexact]
        have hfind : (Expr.binary op l r).postorder.findSome? (failure? value) =
            (Expr.binary op l r).failure? value := by
          simp [postorder, hlstays.findSome?_eq_none, hrstays.findSome?_eq_none]
        rw [heval, hexact, hfind]
        cases hop : op.exact a b with
        | none =>
          obtain ⟨rfl, rfl⟩ := Op.eq_of_exact_eq_none hop
          exact .inr ⟨.divisionByZero, rfl, by simp [failure?, dividesByZero, hrexact]⟩
        | some n =>
          rw [hop] at hexact
          rw [Op.apply_of_exact hop]
          by_cases hn : InRange n
          · refine .inl ⟨n, checked_of_inRange hn, rfl, ?_⟩
            exact List.forall_mem_append.mpr ⟨hlstays, List.forall_mem_append.mpr
              ⟨hrstays, List.forall_mem_singleton.mpr ⟨n, hexact, hn⟩⟩⟩
          · exact .inr ⟨.overflow, checked_of_not_inRange hn, failure?_of_not_inRange hexact hn⟩
      · refine .inr ⟨err, by simp [eval, hleval, heval], ?_⟩
        simp [postorder, hlstays.findSome?_eq_none, hfind]
    · exact .inr ⟨err, by simp [eval, heval], by simp [postorder, hfind]⟩

theorem eval_eq_ok_iff (hv : InRange value) (he : e.Fits) :
    e.eval value = .ok n ↔ e.exact value = some n ∧ e.StaysInRange value := by
  obtain ⟨m, heval, hexact, hstays⟩ | ⟨err, heval, hfind⟩ := eval_cases hv he
  · simp [heval, hexact, hstays]
  · simp only [heval, reduceCtorEq, false_iff, not_and]
    intro _ hstays
    rw [hstays.findSome?_eq_none] at hfind
    cases hfind

theorem eval_eq_error_iff (hv : InRange value) (he : e.Fits) {err : EvalError} :
    e.eval value = .error err ↔ e.postorder.findSome? (failure? value) = some err := by
  obtain ⟨m, heval, hexact, hstays⟩ | ⟨err, heval, hfind⟩ := eval_cases hv he
  · simp [heval, hstays.findSome?_eq_none]
  · simp [heval, hfind]

end Expr

/-- A formula has a value of 64 bits just when its exact value exists and no part of it leaves the
range, and then it is the exact value. Otherwise the first part that fails tells the error. -/
theorem eval_eq_ok_iff_exact {source : String} {f : Formula} (h : read source = .ok f)
    {value : Int} (hv : InRange value) :
    (∀ n, f.eval value = .ok n ↔
      f.expr.exact value = some n ∧ f.expr.StaysInRange value) ∧
    ∀ err, f.eval value = .error err ↔
      f.expr.postorder.findSome? (Expr.failure? value) = some err := by
  obtain ⟨ls, -, hls⟩ := Expr.read_eq_ok_iff.mp (read_eq_ok_iff_expr.mp h).2
  exact ⟨fun n => Expr.eval_eq_ok_iff hv hls.fits, fun err => Expr.eval_eq_error_iff hv hls.fits⟩

theorem eval_eq_ok_iff_exact_least :
    let f : Formula := ⟨"x/-1/(x-x)", .binary .div (.binary .div .var (.neg (.number 1)))
      (.binary .sub .var .var)⟩
    let g : Formula := ⟨"-(x+1)", .neg (.binary .add .var (.number 1))⟩
    read f.source = .ok f ∧ read g.source = .ok g ∧ InRange (-2 ^ 63) ∧ InRange 7 ∧
      f.eval (-2 ^ 63) = .error .overflow ∧ f.eval 7 = .error .divisionByZero ∧
      g.expr.exact (-2 ^ 63) = some (2 ^ 63 - 1) ∧ g.expr.StaysInRange (-2 ^ 63) := by
  intro f g
  have hf : read f.source = .ok f := by decide +kernel
  have hg : read g.source = .ok g := by decide +kernel
  have hleast : InRange (-2 ^ 63) := by decide
  have hseven : InRange 7 := by decide
  refine ⟨hf, hg, hleast, hseven, ?_, ?_, ?_⟩
  · exact ((eval_eq_ok_iff_exact hf hleast).2 _).mpr (by decide +kernel)
  · exact ((eval_eq_ok_iff_exact hf hseven).2 _).mpr (by decide +kernel)
  · exact ((eval_eq_ok_iff_exact hg hleast).1 _).mp (by decide +kernel)

end Wordcode.Formula
