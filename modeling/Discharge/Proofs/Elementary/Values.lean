import Discharge.Proofs.Interpretation
import Discharge.Proofs.Normal.Quotient

/-! Values of canonical forms under an elementary interpretation: i is a square
root of minus one, the exponential turns sums into products, square roots of
rationals are multiplicative, exponentials of exact angles have their exact
values, and the other functions are what they are in terms of exponentials. -/

namespace Discharge

variable {K : Type*} [Field K] [CharZero K]

/-- The laws of an elementary interpretation. -/
structure Interpretation.Elementary (I : Interpretation K) : Prop where
  imaginary : I.constant .imaginary ^ 2 = -1
  euler : I.constant .euler = I.apply .exp 1
  exp_zero : I.apply .exp 0 = 1
  exp_add : ∀ x y, I.apply .exp (x + y) = I.apply .exp x * I.apply .exp y
  /-- An eighth of a turn. -/
  exp_fourth : I.apply .exp (I.constant .imaginary * I.constant .pi / 4) =
    (I.apply .sqrt 2 + I.constant .imaginary * I.apply .sqrt 2) / 2
  /-- A twelfth of a turn. -/
  exp_sixth : I.apply .exp (I.constant .imaginary * I.constant .pi / 6) =
    (I.apply .sqrt 3 + I.constant .imaginary) / 2
  sqrt_mul : ∀ p q : ℚ, 0 < p → 0 < q →
    I.apply .sqrt ((p * q : ℚ) : K) = I.apply .sqrt (p : K) * I.apply .sqrt (q : K)
  sqrt_sq : ∀ q : ℚ, 0 < q → I.apply .sqrt (q : K) ^ 2 = q
  sqrt_square : ∀ q : ℚ, I.apply .sqrt ((q ^ 2 : ℚ) : K) = (|q| : ℚ)
  sqrt_neg : ∀ q : ℚ, 0 < q →
    I.apply .sqrt ((-q : ℚ) : K) = I.constant .imaginary * I.apply .sqrt (q : K)
  sin : ∀ x, I.apply .sin x = (I.apply .exp (I.constant .imaginary * x) -
    I.apply .exp (-(I.constant .imaginary * x))) / (2 * I.constant .imaginary)
  cos : ∀ x, I.apply .cos x = (I.apply .exp (I.constant .imaginary * x) +
    I.apply .exp (-(I.constant .imaginary * x))) / 2
  tan : ∀ x, I.apply .tan x = I.apply .sin x / I.apply .cos x
  sinh : ∀ x, I.apply .sinh x = (I.apply .exp x - I.apply .exp (-x)) / 2
  cosh : ∀ x, I.apply .cosh x = (I.apply .exp x + I.apply .exp (-x)) / 2
  pow : ∀ (x : K) (n : ℤ), I.pow x n = x ^ n

/-! ## Values -/

section Value

variable (I : Interpretation K)

mutual
/-- The value of an atom. -/
def Atom.value : Atom → K
  | .symbol s => I.symbol s
  | .pi => I.constant .pi
  | .imaginary => I.constant .imaginary
  | .root p k => if k = 2 then I.apply .sqrt (Poly.value p) else I.pow (Poly.value p) (1 / k)
  | .ln r => I.apply .ln (Fraction.value r)
  | .power b e => I.pow (Fraction.value b) (Fraction.value e)
  | .exp r => I.apply .exp (Fraction.value r)

/-- The value of a monomial. -/
def Monomial.value : Monomial → K
  | ⟨fs, e⟩ => factorsValue fs * I.apply .exp (Poly.value e)

/-- The value of a polynomial. -/
def Poly.value : Poly → K
  | ⟨ts⟩ => termsValue ts

/-- The value of a fraction. -/
def Fraction.value : Fraction → K
  | ⟨num, den⟩ => Poly.value num / Poly.value den

/-- The value of a product of factors. -/
def factorsValue : List (Atom × Int) → K
  | [] => 1
  | (a, n) :: fs => Atom.value a ^ n * factorsValue fs

/-- The value of a sum of terms. -/
def termsValue : List (Monomial × Rat) → K
  | [] => 0
  | (m, c) :: ts => (c : K) * Monomial.value m + termsValue ts
end

end Value

/-- The atoms of the canonical forms of elementary expressions: the only roots
are square roots of positive rationals. -/
def Atom.IsElementary : Atom → Prop
  | .symbol _ | .pi | .imaginary | .exp _ => True
  | .root p k => k = 2 ∧ ∃ c : ℚ, 0 < c ∧ p = .constant c
  | .ln _ | .power .. => False

namespace Interpretation

variable {I : Interpretation K}

/-- The valuation of an elementary interpretation. -/
def Elementary.valuation (elementary : I.Elementary) : Valuation K where
  atom := Atom.value I
  exp := I.apply .exp
  exp_zero := elementary.exp_zero
  exp_add := elementary.exp_add
  known := Atom.IsElementary
  invertible a := Atom.value I a ≠ 0
  isUnit _ nonzero := nonzero.isUnit
  turning := True

end Interpretation

/-! ## Values of valuations -/

namespace Valuation

variable {I : Interpretation K} {v : Valuation K}

theorem factors_eq_value (atoms : v.atom = Atom.value I) (fs : List (Atom × Int)) :
    v.factors fs = factorsValue I fs := by
  induction fs with
  | nil => rw [factorsValue, factors_nil]
  | cons f fs ih =>
    obtain ⟨a, n⟩ := f
    rw [factorsValue, factors_cons, intPower_eq_zpow, ih, atoms]

mutual
theorem monomial_eq_value (atoms : v.atom = Atom.value I) (exponential : v.exp = I.apply .exp) :
    ∀ m : Monomial, v.monomial m = m.value I
  | ⟨fs, e⟩ => by
    rw [Monomial.value, monomial, factors_eq_value atoms, poly_eq_value atoms exponential e,
      exponential]

/-- A valuation with the values of an interpretation gives polynomials their
values. -/
theorem poly_eq_value (atoms : v.atom = Atom.value I) (exponential : v.exp = I.apply .exp) :
    ∀ p : Poly, v.poly p = p.value I
  | ⟨ts⟩ => by rw [Poly.value, poly, terms_eq_value atoms exponential ts]

theorem terms_eq_value (atoms : v.atom = Atom.value I) (exponential : v.exp = I.apply .exp) :
    ∀ ts : List (Monomial × Rat), v.terms ts = termsValue I ts
  | [] => by rw [termsValue, terms]
  | (m, c) :: ts => by
    rw [termsValue, terms, monomial_eq_value atoms exponential m,
      terms_eq_value atoms exponential ts, eq_ratCast]
end

end Valuation

namespace Interpretation

variable {I : Interpretation K} (elementary : I.Elementary)

include elementary

theorem poly_eq_value (p : Poly) : elementary.valuation.poly p = p.value I :=
  Valuation.poly_eq_value rfl rfl p

/-- The root of a constant has the square root as its value. -/
theorem value_root_constant (c : ℚ) :
    Atom.value I (.root (.constant c) 2) = I.apply .sqrt (c : K) := by
  rw [Atom.value, if_pos rfl, ← poly_eq_value elementary, Valuation.poly_constant, eq_ratCast]

end Interpretation

end Discharge
