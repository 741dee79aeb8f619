import Discharge.Normal.ToExpr
import Discharge.Proofs.Interpretation
import Discharge.Proofs.Subterm

/-! How trees of canonical forms are put together: classes of expressions that
they do not leave, and their values. Only that of a constant is a literal. -/

namespace Discharge.Expr

/-! ## Classes -/

namespace Closed

variable {P : Expr → Prop} {num den : Expr} {xs factors exponential : List Expr}

theorem ofFactors (closed : Closed P) (each : ∀ x ∈ xs, P x) : P (ofFactors xs) := by
  unfold Expr.ofFactors
  split
  · exact each _ List.mem_cons_self
  · exact (closed.product _).mpr each

theorem ofTerms (closed : Closed P) (each : ∀ x ∈ xs, P x) : P (ofTerms xs) := by
  unfold Expr.ofTerms
  split
  · exact closed.number 0
  · exact each _ List.mem_cons_self
  · exact (closed.sum _).mpr each

theorem ofTerm (closed : Closed P) (c : Rat) (left : ∀ x ∈ factors, P x)
    (right : ∀ x ∈ exponential, P x) : P (ofTerm c factors exponential) := by
  have rest := List.forall_mem_append.mpr ⟨left, right⟩
  unfold Expr.ofTerm
  refine closed.ofFactors ?_
  split
  · exact rest
  · exact List.forall_mem_cons.mpr ⟨closed.number c, rest⟩

theorem overDenominator (closed : Closed P) (top : P num)
    (reciprocal : P (.power den (.int (-1)))) : P (num.overDenominator den) := by
  have pair : ∀ {e : Expr}, P e → P (.product [e, .power den (.int (-1))]) :=
    fun holds => (closed.product _).mpr (by simpa using ⟨holds, reciprocal⟩)
  unfold Expr.overDenominator
  dsimp only
  split
  · refine (closed.product _).mpr (List.forall_mem_append.mpr ⟨(closed.product _).mp top, ?_⟩)
    simpa using reciprocal
  · split
    · exact reciprocal
    · exact pair top
  · exact pair top

end Closed

/-! ## Values -/

section Value

variable {K : Type*} [Field K] {I : Interpretation K} {xs factors exponential : List Expr}

theorem value_ofFactors : value I (ofFactors xs) = (values I xs).prod := by
  unfold ofFactors
  split <;> simp

theorem value_ofTerms : value I (ofTerms xs) = (values I xs).sum := by
  unfold ofTerms
  split <;> simp [zero]

theorem value_ofTerm (c : Rat) : value I (ofTerm c factors exponential) =
    c * ((values I factors).prod * (values I exponential).prod) := by
  unfold ofTerm
  dsimp only
  rw [value_ofFactors]
  split
  · rename_i one
    simp [one.1]
  · simp

variable (integer : ∀ (x : K) (n : ℤ), I.pow x n = x ^ n)

include integer

theorem value_raised (e : Expr) (n : Int) : value I (e.raised n) = value I e ^ n := by
  unfold raised
  split
  · rename_i one
    rw [one, zpow_one]
  · rw [value_power, int, value_number, Rat.cast_intCast, integer]

theorem value_overDenominator (num den : Expr) :
    value I (num.overDenominator den) = value I num / value I den := by
  have reciprocal : value I (.power den (.int (-1))) = (value I den)⁻¹ := by
    rw [value_power, int, value_number, Rat.cast_intCast, integer, zpow_neg_one]
  unfold overDenominator
  dsimp only
  split
  · rw [value_product, values_append, List.prod_append, values_cons, values_nil, reciprocal,
      List.prod_singleton, value_product, div_eq_mul_inv]
  · split
    · rename_i one
      rw [reciprocal, value_number, one, Rat.cast_one, one_div]
    · simp [reciprocal, div_eq_mul_inv]
  · simp [reciprocal, div_eq_mul_inv]

end Value

end Discharge.Expr

namespace Discharge

/-! ## Trees that are literals -/

theorem Atom.toExpr_ne_number (a : Atom) (q : Rat) : a.toExpr ≠ .number q := by
  cases a with
  | root p k =>
    rw [Atom.toExpr]
    split <;> simp
  | _ => simp [Atom.toExpr]

theorem raised_ne_number (a : Atom) (n : Int) (q : Rat) : a.toExpr.raised n ≠ .number q := by
  unfold Expr.raised
  split
  · exact a.toExpr_ne_number q
  · simp

/-- The tree of a polynomial is a literal only for a constant. -/
theorem Poly.constant_of_toExpr {p : Poly} {q : Rat} (literal : p.toExpr = .number q) :
    p.constant? = some q := by
  obtain ⟨ts⟩ := p
  rw [Poly.toExpr] at literal
  rcases ts with _ | ⟨⟨⟨fs, ⟨es⟩⟩, c⟩, _ | ⟨⟨⟨gs, e⟩, d⟩, ts⟩⟩
  · rw [termsToExprs] at literal
    cases literal
    rfl
  · rw [termsToExprs, termsToExprs, Expr.ofTerms, Expr.ofTerm] at literal
    rcases fs with _ | ⟨⟨a, n⟩, fs⟩
    · rw [factorsToExprs] at literal
      cases es with
      | nil =>
        rw [exponentialToExprs] at literal
        simpa [Expr.ofFactors, Poly.constant?] using literal
      | cons e es =>
        rw [exponentialToExprs] at literal
        split_ifs at literal <;> simp [Expr.ofFactors] at literal
    · rw [factorsToExprs] at literal
      have single : ∀ xs, Expr.ofFactors (a.toExpr.raised n :: xs) ≠ .number q := by
        intro xs
        cases xs with
        | nil => exact raised_ne_number a n q
        | cons x xs => simp [Expr.ofFactors]
      split_ifs at literal
      · exact absurd literal (single _)
      · simp [Expr.ofFactors] at literal
  · rw [termsToExprs, termsToExprs] at literal
    cases literal

/-- The tree of a fraction is a literal only for a constant. -/
theorem Fraction.constant_of_toExpr {r : Fraction} {q : Rat} (literal : r.toExpr = .number q) :
    r.constant? = some q := by
  obtain ⟨num, den⟩ := r
  rw [Fraction.toExpr] at literal
  rw [Fraction.constant?]
  split at literal
  · rename_i one
    rw [if_pos one]
    exact Poly.constant_of_toExpr literal
  · unfold Expr.overDenominator at literal
    dsimp only at literal
    split at literal
    · cases literal
    · split at literal <;> cases literal
    · cases literal

end Discharge
