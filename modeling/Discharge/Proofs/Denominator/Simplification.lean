import Mathlib
import Discharge.Proofs.Denominator.Formed
import Discharge.Proofs.Elementary.Verification
import Discharge.Proofs.Tree

/-! Simplified expressions that do not divide by the literal zero. A denominator
that is zero comes about only where some division was by zero: if values can be
given to the symbols so that nothing divided by is zero, then the denominator is
one or monic with several terms, and no negative power of the literal zero
occurs in the simplified tree. -/

namespace Discharge

/-! ## Negative powers of the literal zero -/

namespace Expr

/-- The expression has no negative power of the literal zero in it. -/
def Clean (e : Expr) : Prop := ∀ q : Rat, q < 0 → ¬ Subterm (.power (.number 0) (.number q)) e

theorem clean_iff {e : Expr} : e.Clean ↔
    (∀ q : Rat, q < 0 → e ≠ .power (.number 0) (.number q)) ∧ ∀ c ∈ e.operands, c.Clean := by
  constructor
  · intro clean
    refine ⟨fun q negative same => clean q negative (same ▸ .refl _), fun c member q negative => ?_⟩
    exact fun inside => clean q negative (inside.operand member)
  · rintro ⟨top, below⟩ q negative inside
    rcases inside.eq_or_inside with same | ⟨c, member, inside⟩
    · exact top q negative same.symm
    · exact below c member q negative inside

variable {b e num den : Expr} {xs : List Expr}

theorem clean_number (q : Rat) : (Expr.number q).Clean :=
  clean_iff.mpr ⟨by simp, by simp [operands]⟩

theorem clean_symbol (s : String) : (Expr.symbol s).Clean :=
  clean_iff.mpr ⟨by simp, by simp [operands]⟩

theorem clean_constant (c : Constant) : (Expr.constant c).Clean :=
  clean_iff.mpr ⟨by simp, by simp [operands]⟩

theorem clean_apply (f : Function) (clean : e.Clean) : (Expr.apply f e).Clean :=
  clean_iff.mpr ⟨by simp, by simpa [operands] using clean⟩

theorem clean_sum (each : ∀ x ∈ xs, x.Clean) : (Expr.sum xs).Clean :=
  clean_iff.mpr ⟨by simp, each⟩

theorem clean_product : (Expr.product xs).Clean ↔ ∀ x ∈ xs, x.Clean := by
  rw [clean_iff]
  simp [operands]

theorem clean_power (base : b.Clean) (exponent : e.Clean)
    (proper : ∀ q : Rat, q < 0 → b = .number 0 → e ≠ .number q) : (Expr.power b e).Clean := by
  refine clean_iff.mpr ⟨fun q negative same => ?_, by simpa [operands] using ⟨base, exponent⟩⟩
  obtain ⟨zero, literal⟩ := Expr.power.inj same
  exact proper q negative zero literal

theorem Clean.closed : Closed Clean where
  number := clean_number
  sum _ := ⟨fun clean => (clean_iff.mp clean).2, clean_sum⟩
  product _ := clean_product

theorem clean_overDenominator (top : num.Clean) (bottom : den.Clean) (proper : den ≠ .number 0) :
    (num.overDenominator den).Clean :=
  Clean.closed.overDenominator top
    (clean_power bottom (clean_number _) fun _ _ zero => absurd zero proper)

end Expr

/-! ## Trees of well-formed canonical forms -/

section Clean

variable {K : Type*} [Field K] {I : Interpretation K}

/-- The tree of a polynomial is the literal zero only if its value is zero. -/
theorem Poly.toExpr_ne_zero {p : Poly} (nonzero : p.value I ≠ 0) : p.toExpr ≠ .number 0 := by
  intro literal
  obtain ⟨ts⟩ := p
  have constant := Poly.constant_of_toExpr literal
  rw [Poly.value] at nonzero
  unfold Poly.constant? at constant
  split at constant
  · rename_i empty
    obtain rfl : ts = [] := empty
    rw [termsValue] at nonzero
    exact nonzero rfl
  · rename_i c single
    obtain rfl : ts = [(⟨[], ⟨[]⟩⟩, c)] := single
    cases constant
    rw [termsValue, termsValue, Rat.cast_zero, zero_mul, add_zero] at nonzero
    exact nonzero rfl
  · cases constant

mutual
theorem Atom.toExpr_clean : ∀ a : Atom, a.Formed I → a.toExpr.Clean
  | .symbol s, _ => by
    rw [Atom.toExpr]
    exact Expr.clean_symbol s
  | .pi, _ => by
    rw [Atom.toExpr]
    exact Expr.clean_constant _
  | .imaginary, _ => by
    rw [Atom.toExpr]
    exact Expr.clean_constant _
  | .root p k, formed => by
    rw [Atom.Formed] at formed
    have radicand := Poly.toExpr_clean p formed.2.2
    rw [Atom.toExpr]
    split
    · exact Expr.clean_apply _ radicand
    · refine Expr.clean_power radicand (Expr.clean_number _) fun q negative _ literal => ?_
      -- The exponent of a root is positive.
      have exponent := Expr.number.inj literal
      rw [← exponent, Rat.mkRat_eq_div] at negative
      exact absurd negative (not_lt.mpr (by positivity))
  | .ln r, formed => by
    rw [Atom.Formed] at formed
    rw [Atom.toExpr]
    exact Expr.clean_apply _ (Fraction.toExpr_clean r formed)
  | .exp r, formed => by
    rw [Atom.Formed] at formed
    rw [Atom.toExpr]
    exact Expr.clean_apply _ (Fraction.toExpr_clean r formed)
  | .power b e, formed => by
    rw [Atom.Formed] at formed
    obtain ⟨base, exponent, symbolic⟩ := formed
    rw [Atom.toExpr]
    refine Expr.clean_power (Fraction.toExpr_clean b base) (Fraction.toExpr_clean e exponent) ?_
    intro q _ _ literal
    rw [Fraction.constant_of_toExpr literal] at symbolic
    cases symbolic

theorem Poly.toExpr_clean : ∀ p : Poly, p.Formed I → p.toExpr.Clean
  | ⟨ts⟩, formed => by
    rw [Poly.Formed] at formed
    rw [Poly.toExpr]
    exact Expr.Clean.closed.ofTerms (termsToExprs_clean ts formed.2)

/-- The tree of a well-formed fraction has no negative power of zero in it. -/
theorem Fraction.toExpr_clean : ∀ r : Fraction, r.Formed I → r.toExpr.Clean
  | ⟨num, den⟩, formed => by
    rw [Fraction.Formed] at formed
    obtain ⟨top, bottom, nonzero⟩ := formed
    rw [Fraction.toExpr]
    split
    · exact Poly.toExpr_clean num top
    · exact Expr.clean_overDenominator (Poly.toExpr_clean num top) (Poly.toExpr_clean den bottom)
        (Poly.toExpr_ne_zero nonzero)

theorem exponentialToExprs_clean : ∀ p : Poly, p.Formed I → ∀ x ∈ exponentialToExprs p, x.Clean
  | ⟨[]⟩, _ => by simp [exponentialToExprs]
  | ⟨t :: ts⟩, formed => by
    rw [Poly.Formed] at formed
    rw [exponentialToExprs]
    split
    · simpa using Expr.clean_constant _
    · simpa using Expr.clean_apply _
        (Expr.Clean.closed.ofTerms (termsToExprs_clean (t :: ts) formed.2))

theorem factorsToExprs_clean : ∀ fs : List (Atom × Int), factorsFormed I fs →
    ∀ x ∈ factorsToExprs fs, x.Clean
  | [], _ => by simp [factorsToExprs]
  | (a, n) :: fs, formed => by
    rw [factorsFormed] at formed
    have atom := Atom.toExpr_clean a formed.2.1
    rw [factorsToExprs]
    refine List.forall_mem_cons.mpr ⟨?_, factorsToExprs_clean fs formed.2.2⟩
    unfold Expr.raised
    split
    · exact atom
    · exact Expr.clean_power atom (Expr.clean_number _) fun _ _ zero =>
        absurd zero (a.toExpr_ne_number 0)

theorem termsToExprs_clean : ∀ ts : List (Monomial × Rat), termsFormed I ts →
    ∀ x ∈ termsToExprs ts, x.Clean
  | [], _ => by simp [termsToExprs]
  | (⟨fs, e⟩, c) :: ts, formed => by
    rw [termsFormed, Monomial.Formed] at formed
    obtain ⟨⟨-, factors, exponent⟩, rest⟩ := formed
    rw [termsToExprs]
    refine List.forall_mem_cons.mpr ⟨?_, termsToExprs_clean ts rest⟩
    exact Expr.Clean.closed.ofTerm c (factorsToExprs_clean fs factors)
      (exponentialToExprs_clean e exponent)
end

end Clean

/-! ## The complex numbers with principal roots -/

namespace Interpretation

section

-- Under a name, the instance for the numeral leaves no proof in the definition.
local instance atLeastTwo_half : Nat.AtLeastTwo 2 := inferInstance

/-- The complex numbers, with the principal square root everywhere. -/
noncomputable def principal (symbol : String → ℂ) : Interpretation ℂ :=
  { complex symbol with
    apply
      | .sqrt => fun z => z ^ (1 / 2 : ℂ)
      | f => (complex symbol).apply f }

end

variable (symbol : String → ℂ)

/-- The square roots of rationals are real or imaginary. -/
theorem principal_sqrt (q : ℚ) :
    (principal symbol).apply .sqrt (q : ℂ) = (complex symbol).apply .sqrt (q : ℂ) := by
  change ((q : ℂ)) ^ (1 / 2 : ℂ) = _
  have half : (1 / 2 : ℂ) = ((1 / 2 : ℝ) : ℂ) := by norm_num
  have root : ∀ x : ℝ, 0 ≤ x → (x : ℂ) ^ (1 / 2 : ℂ) = (√x : ℝ) := by
    intro x nonneg
    rw [half, ← Complex.ofReal_cpow nonneg, Real.sqrt_eq_rpow]
  rcases le_or_gt 0 q with nonneg | negative
  · rw [complex_sqrt symbol nonneg, ← Complex.ofReal_ratCast, root _ (by exact_mod_cast nonneg)]
  · have positive : 0 < -q := neg_pos.mpr negative
    have imaginary := (complex_elementary symbol).sqrt_neg (-q) positive
    rw [neg_neg, complex_sqrt symbol positive.le] at imaginary
    rw [imaginary]
    have quarter : Complex.exp (Real.pi * Complex.I * (1 / 2)) = Complex.I := by
      rw [mul_one_div, mul_div_right_comm, Complex.exp_pi_div_two_mul_I]
    have below : (q : ℝ) ≤ 0 := by exact_mod_cast negative.le
    have reflected : -(((q : ℝ)) : ℂ) = ((-q : ℚ) : ℝ) := by push_cast; rfl
    rw [← Complex.ofReal_ratCast, Complex.ofReal_cpow_of_nonpos below, quarter, reflected,
      root _ (by exact_mod_cast positive.le), mul_comm]
    rfl

theorem principal_rooted : (principal symbol).Rooted where
  imaginary := Complex.I_sq
  euler := rfl
  exp_zero := Complex.exp_zero
  exp_add := Complex.exp_add
  exp_fourth := by
    have root := principal_sqrt symbol 2
    push_cast at root
    rw [root]
    exact (complex_elementary symbol).exp_fourth
  exp_sixth := by
    have root := principal_sqrt symbol 3
    push_cast at root
    rw [root]
    exact (complex_elementary symbol).exp_sixth
  sqrt_mul p q positive positive' := by
    rw [principal_sqrt, principal_sqrt, principal_sqrt]
    exact (complex_elementary symbol).sqrt_mul p q positive positive'
  sqrt_sq q positive := by
    rw [principal_sqrt]
    exact (complex_elementary symbol).sqrt_sq q positive
  sqrt_square q := by
    rw [principal_sqrt]
    exact (complex_elementary symbol).sqrt_square q
  sqrt_neg q positive := by
    rw [principal_sqrt, principal_sqrt]
    exact (complex_elementary symbol).sqrt_neg q positive
  sin := (complex_elementary symbol).sin
  cos := (complex_elementary symbol).cos
  tan := (complex_elementary symbol).tan
  sinh := (complex_elementary symbol).sinh
  cosh := (complex_elementary symbol).cosh
  pow := Complex.cpow_intCast
  sqrt_root x := by
    change (x ^ (1 / 2 : ℂ)) ^ 2 = x
    rw [one_div]
    exact_mod_cast Complex.cpow_nat_inv_pow x two_ne_zero
  root x k proper := by
    change (x ^ (1 / (k : ℂ))) ^ k = x
    rw [one_div]
    exact Complex.cpow_nat_inv_pow x (by omega)
  pow_ne_zero x y nonzero := by
    change x ^ y ≠ 0
    rw [Ne, Complex.cpow_eq_zero_iff]
    exact fun zero => nonzero zero.1

end Interpretation

/-! ## Simplified expressions -/

theorem Fraction.ofExpr_shaped {max : Nat} {e : Expr} {r : Fraction}
    (ran : Fraction.ofExpr max e = .ok r) : r.Shaped := by
  -- The shape does not depend on values, so any will do and nothing need be given.
  have sane : Yields (Traced.ofExpr max e)
      ((Interpretation.complex_elementary 0).valuation.Sane False) :=
    Valuation.ofExpr_sane (fun impossible => impossible.elim) e fun impossible => impossible.elim
  exact (sane.of_ok (Traced.ofExpr_of_ok ran)).shaped

/-- A canonical form is well formed where nothing is zero that was divided by or
raised to a symbolic exponent. -/
theorem Interpretation.Rooted.ofExpr_formed {K : Type*} [Field K] [CharZero K]
    {I : Interpretation K} (rooted : I.Rooted) {max : Nat} (bounded : max ≤ 4294967295) {e : Expr}
    {r : Fraction} (ran : Fraction.ofExpr max e = .ok r)
    (divisors : ∀ d ∈ e.divisors max, d.value I ≠ 0)
    (bases : ∀ p, e.IsPowerBase max p → p.value I ≠ 0) : r.Formed I := by
  have fits : fitsInt64 max = true := by
    rw [Monomial.fitsInt64_iff]
    omega
  have based : rooted.valuation.Based True max e := by
    intro _ p base
    rw [rooted.poly_value]
    exact bases p base
  have sane := (Valuation.ofExpr_sane (fun _ => fits) e based).of_ok (Traced.ofExpr_of_ok ran)
  refine (rooted.formed_fraction r).mpr (sane.safe rooted.complete trivial fun d member => ?_)
  rw [rooted.poly_value]
  exact divisors d member

/-- The denominator of a canonical form is zero, one, or monic with several
terms.  If there is an interpretation with roots under which nothing is zero that
was divided by or raised to a symbolic exponent, then the denominator is not
zero, and the simplified expression has no negative power of the literal zero. -/
theorem denominator_of_regular {K : Type*} [Field K] [CharZero K] (I : Interpretation K)
    (guards : Guards) {e : Expr} {r : Fraction}
    (ran : Fraction.ofExpr guards.maxPower e = .ok r) :
    (r.den = .zero ∨ r.den = .one ∨ 2 ≤ r.den.terms.length ∧ r.den.leading? = some 1) ∧
      (I.Rooted → guards.maxPower ≤ 4294967295 →
        (∀ d ∈ e.divisors guards.maxPower, d.value I ≠ 0) →
        (∀ p, e.IsPowerBase guards.maxPower p → p.value I ≠ 0) →
        r.den ≠ .zero ∧ ∀ s, (Oracle.exact guards).simplify e = .ok s → s.Clean) := by
  refine ⟨?_, fun rooted bounded divisors bases => ?_⟩
  · cases Fraction.ofExpr_shaped ran with
    | zero zero => exact .inl zero
    | one one => exact .inr (.inl one)
    | several length leading => exact .inr (.inr ⟨length, leading⟩)
  · have formed := rooted.ofExpr_formed bounded ran divisors bases
    have regular := (rooted.formed_fraction r).mp formed
    refine ⟨fun zero => regular.nonzero (by rw [zero, Valuation.poly_zero]), fun s simplified => ?_⟩
    have tree : (Fraction.ofExpr guards.maxPower e).map Fraction.toExpr = .ok s := simplified
    rw [ran] at tree
    cases tree
    exact r.toExpr_clean formed

/-- `1 / (1 + sqrt(x))`. -/
def rootReciprocal : Expr :=
  .power (.sum [.number 1, .apply .sqrt (.symbol "x")]) (.int (-1))

/-- The polynomial `1 + sqrt(x)`. -/
def onePlusRootOfSymbol : Poly := .add .one (.ofAtom (.root (.ofAtom (.symbol "x")) 2))

theorem rootReciprocal_divisors :
    ∀ d ∈ rootReciprocal.divisors 64, d = .one ∨ d = onePlusRootOfSymbol := by
  have each : (rootReciprocal.divisors 64).all fun d => d = .one ∨ d = onePlusRootOfSymbol := by
    decide_cbv
  simpa using each

/-- The only power has a constant exponent. -/
theorem rootReciprocal_bases (p : Poly) : ¬ rootReciprocal.IsPowerBase 64 p := by
  rintro ⟨b, x, r, s, inside, -, exponent, symbolic, -⟩
  cases inside with
  | refl =>
    rw [Expr.int, Fraction.ofExpr] at exponent
    cases exponent
    rw [Fraction.constant?_constant] at symbolic
    cases symbolic
  | base inside =>
    cases inside with
    | sum member inside =>
      rcases List.mem_pair.mp member with rfl | rfl
      · cases inside
      · cases inside with
        | argument inside => cases inside
  | exponent inside => cases inside

/-- The expression is its own simplified form. -/
theorem denominator_of_regular_rootReciprocal :
    (Oracle.exact {}).simplify rootReciprocal = .ok rootReciprocal ∧ rootReciprocal.Clean := by
  have simplified : (Oracle.exact {}).simplify rootReciprocal = .ok rootReciprocal := by
    decide_cbv
  obtain ⟨r, ran, -⟩ := map_eq_ok simplified
  have rooted := Interpretation.principal_rooted fun _ => 1
  refine ⟨simplified, ((denominator_of_regular _ {} ran).2 rooted (by decide)
    (fun d member => ?_) fun p base => absurd base (rootReciprocal_bases p)).2 _ simplified⟩
  rw [← rooted.poly_value]
  rcases rootReciprocal_divisors d member with rfl | rfl
  · rw [Valuation.poly_one]
    exact one_ne_zero
  · -- The square root of one is one.
    have root : Atom.value (Interpretation.principal fun _ => 1)
        (.root (.ofAtom (.symbol "x")) 2) = 1 := by
      rw [Atom.value, if_pos rfl, ← rooted.poly_value, Valuation.poly_ofAtom]
      exact Complex.one_cpow _
    rw [onePlusRootOfSymbol, Valuation.poly_add, Valuation.poly_one, Valuation.poly_ofAtom]
    change (1 : ℂ) + Atom.value _ _ ≠ 0
    rw [root]
    norm_num

/-- `1 / (x * sqrt(1 / sqrt(x)) - sqrt(x) / sqrt(1 / sqrt(x)))`, which divides by
zero. -/
def hiddenZero : Expr :=
  let root := Expr.apply .sqrt (.symbol "x")
  let inner := Expr.apply .sqrt (.power root (.int (-1)))
  .power (.sum [.product [.symbol "x", inner],
    .product [.number (-1), root, .power inner (.int (-1))]]) (.int (-1))

/-- `sqrt(x) * sqrt(1 / sqrt(x)) / 0`. -/
def zeroQuotient : Expr :=
  let root := Expr.apply .sqrt (.symbol "x")
  .product [root, .apply .sqrt (.power root (.int (-1))), .power (.number 0) (.int (-1))]

/-- The denominator of a canonical form can be zero, and then the simplified
expression divides by the literal zero. -/
theorem hiddenZero_denominator :
    (Fraction.ofExpr 64 hiddenZero).map Fraction.den = .ok .zero ∧
      (Oracle.exact {}).simplify hiddenZero = .ok zeroQuotient ∧ ¬ zeroQuotient.Clean := by
  refine ⟨by decide +kernel, by decide +kernel, fun clean => ?_⟩
  refine clean (-1) (by decide) (.product ?_ (.refl _))
  exact List.mem_cons_of_mem _ (List.mem_cons_of_mem _ List.mem_cons_self)

end Discharge
