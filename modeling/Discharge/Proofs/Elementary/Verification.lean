import Mathlib
import Discharge.Proofs.Elementary.Soundness
import Discharge.Proofs.Trail

/-! The oracle on elementary expressions. Where it finds zero, the value is zero
under every elementary interpretation, and the complex numbers are one. -/

namespace Discharge

/-! ## The complex numbers -/

namespace Interpretation

/-- The complex numbers, with a square root that is real or imaginary. -/
noncomputable def complex (symbol : String → ℂ) : Interpretation ℂ where
  symbol := symbol
  constant
    | .pi => Real.pi
    | .euler => Complex.exp 1
    | .imaginary => Complex.I
  apply
    | .exp => Complex.exp
    | .ln => Complex.log
    | .sqrt => fun z => if 0 ≤ z.re then (√z.re : ℝ) else Complex.I * (√(-z.re) : ℝ)
    | .sin => Complex.sin
    | .cos => Complex.cos
    | .tan => Complex.tan
    | .sinh => Complex.sinh
    | .cosh => Complex.cosh
  pow x y := x ^ y

variable (symbol : String → ℂ)

theorem complex_sqrt {q : ℚ} (nonneg : 0 ≤ q) :
    (complex symbol).apply .sqrt (q : ℂ) = (√(q : ℝ) : ℝ) := by
  have real : (0 : ℝ) ≤ ((q : ℂ)).re := by
    rw [Complex.ratCast_re]
    exact_mod_cast nonneg
  change (if 0 ≤ ((q : ℂ)).re then _ else _) = _
  rw [if_pos real, Complex.ratCast_re]

/-- An exponential on the unit circle. -/
theorem complex_exp (angle : ℝ) : (complex symbol).apply .exp (Complex.I * angle) =
    (Real.cos angle : ℝ) + Complex.I * (Real.sin angle : ℝ) := by
  change Complex.exp (Complex.I * angle) = _
  rw [mul_comm, Complex.exp_mul_I, Complex.ofReal_cos, Complex.ofReal_sin, mul_comm Complex.I]

theorem complex_elementary : (complex symbol).Elementary where
  imaginary := Complex.I_sq
  euler := rfl
  exp_zero := Complex.exp_zero
  exp_add := Complex.exp_add
  exp_fourth := by
    have root := complex_sqrt symbol (q := 2) (by norm_num)
    have angle := complex_exp symbol (Real.pi / 4)
    rw [Real.cos_pi_div_four, Real.sin_pi_div_four] at angle
    push_cast at root angle
    rw [mul_div_assoc, root]
    refine angle.trans ?_
    change _ = ((√2 : ℝ) + Complex.I * (√2 : ℝ)) / 2
    ring
  exp_sixth := by
    have root := complex_sqrt symbol (q := 3) (by norm_num)
    have angle := complex_exp symbol (Real.pi / 6)
    rw [Real.cos_pi_div_six, Real.sin_pi_div_six] at angle
    push_cast at root angle
    rw [mul_div_assoc, root]
    refine angle.trans ?_
    change _ = ((√3 : ℝ) + Complex.I) / 2
    ring
  sqrt_mul p q positive positive' := by
    rw [complex_sqrt symbol (mul_pos positive positive').le, complex_sqrt symbol positive.le,
      complex_sqrt symbol positive'.le, Rat.cast_mul, Real.sqrt_mul (by exact_mod_cast positive.le),
      Complex.ofReal_mul]
  sqrt_sq q positive := by
    rw [complex_sqrt symbol positive.le, ← Complex.ofReal_pow,
      Real.sq_sqrt (by exact_mod_cast positive.le), Complex.ofReal_ratCast]
  sqrt_square q := by
    rw [complex_sqrt symbol (sq_nonneg q), Rat.cast_pow, Real.sqrt_sq_eq_abs, ← Rat.cast_abs,
      Complex.ofReal_ratCast]
  sqrt_neg q positive := by
    have negative : ¬ (0 : ℝ) ≤ (((-q : ℚ) : ℂ)).re := by
      rw [Complex.ratCast_re, not_le]
      exact_mod_cast neg_neg_of_pos positive
    rw [complex_sqrt symbol positive.le]
    change (if 0 ≤ (((-q : ℚ) : ℂ)).re then _ else _) = _
    rw [if_neg negative, Complex.ratCast_re, Rat.cast_neg, neg_neg]
    rfl
  sin x := by
    change Complex.sin x = (Complex.exp (Complex.I * x) - Complex.exp (-(Complex.I * x))) /
      (2 * Complex.I)
    rw [Complex.sin, mul_comm Complex.I x, ← neg_mul,
      eq_div_iff (mul_ne_zero two_ne_zero Complex.I_ne_zero)]
    linear_combination (Complex.exp (-x * Complex.I) - Complex.exp (x * Complex.I)) * Complex.I_sq
  cos x := by
    change Complex.cos x = (Complex.exp (Complex.I * x) + Complex.exp (-(Complex.I * x))) / 2
    rw [Complex.cos, mul_comm Complex.I x, ← neg_mul]
  tan x := Complex.tan_eq_sin_div_cos x
  sinh x := rfl
  cosh x := rfl
  pow := Complex.cpow_intCast

end Interpretation

/-! ## The oracle -/

open Interpretation (complex complex_elementary complex_sqrt)

/-- The canonical form of an elementary expression has the value of the
expression, under every elementary interpretation in a field that makes nothing
zero that was divided by.  The oracle then takes an expression for zero only if
its value is zero. -/
theorem elementary_normal_form_sound {K : Type*} [Field K] [CharZero K] {I : Interpretation K}
    (elementary : I.Elementary) (guards : Guards) {e : Expr} (inside : e.IsElementary)
    {r : Fraction} (ran : Fraction.ofExpr guards.maxPower e = .ok r)
    (regular : ∀ d ∈ e.divisors guards.maxPower, d.value I ≠ 0) :
    r.den.value I ≠ 0 ∧ e.value I = r.num.value I / r.den.value I ∧
      ((Oracle.exact guards).isZero e = .ok true → e.value I = 0) := by
  have sound := (elementary.preserves inside).of_ok (Traced.ofExpr_of_ok ran)
  have denotes : elementary.valuation.Denotes r (e.value I) := by
    refine sound fun d member => ?_
    rw [Interpretation.poly_eq_value]
    exact regular d member
  have quotient := denotes.eq_div
  refine ⟨?_, ?_, fun zero => ?_⟩
  · rw [← Interpretation.poly_eq_value elementary]
    exact denotes.regular
  · rw [← Interpretation.poly_eq_value elementary, ← Interpretation.poly_eq_value elementary]
    exact quotient
  · have empty : r.num.isZero = true := by
      have tested : (Fraction.ofExpr guards.maxPower e).map Fraction.isZero = .ok true := zero
      obtain ⟨s, ran', test⟩ := map_eq_ok tested
      cases ran.symm.trans ran'
      exact test
    rw [quotient, Valuation.poly_of_isZero empty, zero_div]

/-- `1 / (1 + sqrt(2)) + 1 - sqrt(2)`. -/
def surdReciprocal : Expr :=
  let root := Expr.apply .sqrt (.number 2)
  .sum [.power (.sum [.number 1, root]) (.int (-1)), .number 1, .product [.number (-1), root]]

theorem surdReciprocal_isElementary : surdReciprocal.IsElementary := by
  have base : (Expr.sum [.number 1, .apply .sqrt (.number 2)]).IsElementary :=
    .sum (by simpa using ⟨.number 1, .sqrt 2⟩)
  have minus : (Expr.product [.number (-1), .apply .sqrt (.number 2)]).IsElementary :=
    .product (by simpa using ⟨.number (-1), .sqrt 2⟩)
  exact .sum (by simpa using ⟨.power (-1) base, .number 1, minus⟩)

/-- The polynomial `1 + c * sqrt(2)`. -/
def onePlusRoot (c : Rat) : Poly := .add .one (.term ⟨[(.root (.constant 2) 2, 1)], .zero⟩ c)

theorem surdReciprocal_divisors :
    ∀ d ∈ surdReciprocal.divisors 64, d = .one ∨ d = onePlusRoot 1 ∨ d = onePlusRoot (-1) := by
  have each : (surdReciprocal.divisors 64).all fun d =>
      d = .one ∨ d = onePlusRoot 1 ∨ d = onePlusRoot (-1) := by
    decide_cbv
  simpa using each

theorem onePlusRoot_value (c : Rat) :
    (onePlusRoot c).value (complex 0) = ((1 + c * √2 : ℝ) : ℂ) := by
  have root := complex_sqrt 0 (q := 2) (by norm_num)
  rw [onePlusRoot, ← Interpretation.poly_eq_value (complex_elementary 0), Valuation.poly_add,
    Valuation.poly_one, Valuation.poly_term, Valuation.monomial_eq]
  have atom : (complex_elementary 0).valuation.atom (.root (.constant 2) 2) = (√2 : ℝ) := by
    refine (Interpretation.value_root_constant (complex_elementary 0) 2).trans (root.trans ?_)
    norm_num
  simp [atom, Valuation.exp_zero]

theorem elementary_normal_form_sound_surdReciprocal :
    surdReciprocal.value (complex 0) = 0 := by
  have ran : Fraction.ofExpr ({} : Guards).maxPower surdReciprocal = .ok .zero := by decide_cbv
  have zero : (Oracle.exact {}).isZero surdReciprocal = .ok true := by decide_cbv
  refine (elementary_normal_form_sound (complex_elementary 0) {} surdReciprocal_isElementary ran
    ?_).2.2 zero
  have irrational : √2 ≠ 1 := by
    rw [Ne, Real.sqrt_eq_one]
    norm_num
  intro d member
  obtain rfl | rfl | rfl := surdReciprocal_divisors d member
  · rw [← Interpretation.poly_eq_value (complex_elementary 0), Valuation.poly_one]
    exact one_ne_zero
  · rw [onePlusRoot_value, Complex.ofReal_ne_zero]
    positivity
  · rw [onePlusRoot_value, Complex.ofReal_ne_zero]
    intro vanishes
    apply irrational
    push_cast at vanishes
    linarith

end Discharge
