import Mathlib

/-! Integer powers of rational functions. Products of integer powers of the
variables are linearly independent in the field of rational functions: after
multiplication by one large monomial they are distinct monomials of the ring of
polynomials. -/

namespace Discharge

/-! ## Over any field -/

section Laurent

variable (F : Type*) [Field F]

/-- The product of integer powers of the variables, over a field of coefficients. -/
noncomputable def laurentOver (e : String →₀ ℤ) : FractionRing (MvPolynomial String F) :=
  e.prod fun s n => algebraMap (MvPolynomial String F) _ (.X s) ^ n

theorem variable_ne_zero (s : String) :
    algebraMap (MvPolynomial String F) (FractionRing (MvPolynomial String F)) (.X s) ≠ 0 := by
  rw [ne_eq, FaithfulSMul.algebraMap_eq_zero_iff]
  exact MvPolynomial.X_ne_zero s

theorem laurentOver_add (d e : String →₀ ℤ) :
    laurentOver F (d + e) = laurentOver F d * laurentOver F e :=
  Finsupp.prod_add_index' (fun _ => zpow_zero _) fun s m n => zpow_add₀ (variable_ne_zero F s) m n

theorem laurentOver_single (s : String) (n : ℤ) :
    laurentOver F (.single s n) = algebraMap (MvPolynomial String F) _ (.X s) ^ n :=
  Finsupp.prod_single_index (zpow_zero _)

/-- Without negative powers this is a monomial of the ring of polynomials. -/
theorem laurentOver_natCast (e : String →₀ ℕ) :
    laurentOver F (e.mapRange Int.ofNat rfl) =
      algebraMap (MvPolynomial String F) _ (.monomial e 1) := by
  rw [laurentOver, Finsupp.prod_mapRange_index fun s => zpow_zero _, MvPolynomial.monomial_eq,
    map_mul, map_one, map_one, one_mul, Finsupp.prod, Finsupp.prod, map_prod]
  exact Finset.prod_congr rfl fun s _ => by simp

theorem laurentOver_linearIndependent : LinearIndependent F (laurentOver F) := by
  rw [linearIndependent_iff']
  intro S g vanish e member
  -- A shift that leaves no negative exponent.
  let shift : String →₀ ℕ := ∑ d ∈ S, d.mapRange Int.natAbs rfl
  have large : ∀ d ∈ S, ∀ s, 0 ≤ d s + shift s := by
    intro d chosen s
    have below : (d s).natAbs ≤ shift s := by
      have single := Finset.single_le_sum (f := fun d => d.mapRange Int.natAbs rfl)
        (fun _ _ => zero_le) chosen
      exact single s
    omega
  let lifted : (String →₀ ℤ) → String →₀ ℕ :=
    fun d => (d + shift.mapRange Int.ofNat rfl).mapRange Int.toNat rfl
  have lifts : ∀ d ∈ S, d + shift.mapRange Int.ofNat rfl = (lifted d).mapRange Int.ofNat rfl := by
    intro d chosen
    ext s
    have nonneg := large d chosen s
    simp only [lifted, Finsupp.add_apply, Finsupp.mapRange_apply, Int.ofNat_eq_natCast] at nonneg ⊢
    omega
  have polynomial : ∑ d ∈ S, g d • MvPolynomial.monomial (lifted d) (1 : F) = 0 := by
    refine (FaithfulSMul.algebraMap_eq_zero_iff _ (FractionRing (MvPolynomial String F))).mp ?_
    have scaled := congrArg (· * laurentOver F (shift.mapRange Int.ofNat rfl)) vanish
    simp only [zero_mul, Finset.sum_mul, smul_mul_assoc, ← laurentOver_add] at scaled
    rw [map_sum, ← scaled]
    refine Finset.sum_congr rfl fun d chosen => ?_
    rw [lifts d chosen, laurentOver_natCast, algebraMap.smul]
  have coefficient := congrArg (MvPolynomial.coeff (lifted e)) polynomial
  rw [MvPolynomial.coeff_sum, Finset.sum_eq_single_of_mem e member] at coefficient
  · simpa using coefficient
  · intro d chosen different
    rw [MvPolynomial.coeff_smul, MvPolynomial.coeff_monomial, if_neg, smul_zero]
    intro same
    refine different ?_
    have equal := (lifts d chosen).trans ((congrArg _ same).trans (lifts e member).symm)
    exact add_right_cancel equal

end Laurent

/-! ## Over the rationals -/

/-- The field of rational functions over the rationals, with texts as variables. -/
abbrev RationalFunction : Type := FractionRing (MvPolynomial String ℚ)

namespace RationalFunction

/-- Rationals act on rational functions as constant polynomials. -/
noncomputable instance : Algebra ℚ RationalFunction := OreLocalization.instAlgebra

instance : IsDomain (MvPolynomial String ℚ) := inferInstance

instance : IsFractionRing (MvPolynomial String ℚ) RationalFunction := inferInstance

/-- A variable as a rational function. -/
noncomputable def var (s : String) : RationalFunction :=
  algebraMap (MvPolynomial String ℚ) RationalFunction (.X s)

theorem var_ne_zero (s : String) : var s ≠ 0 := variable_ne_zero ℚ s

/-- The product of integer powers of the variables. -/
noncomputable def laurent (e : String →₀ ℤ) : RationalFunction := e.prod fun s n => var s ^ n

theorem laurent_add (d e : String →₀ ℤ) : laurent (d + e) = laurent d * laurent e :=
  laurentOver_add ℚ d e

theorem laurent_single (s : String) (n : ℤ) : laurent (.single s n) = var s ^ n :=
  laurentOver_single ℚ s n

theorem laurent_linearIndependent : LinearIndependent ℚ laurent := laurentOver_linearIndependent ℚ

/-- An integer power; zero has no negative one, and its power zero is one. -/
noncomputable def integerPower (x : RationalFunction) (n : Int) : Option RationalFunction :=
  if n < 0 ∧ x = 0 then none else some (x ^ n)

theorem integerPower_eq_some {x y : RationalFunction} {n : Int} :
    integerPower x n = some y ↔ ¬ (n < 0 ∧ x = 0) ∧ x ^ n = y := by
  unfold integerPower
  split
  · simp_all
  · simp_all

end RationalFunction

end Discharge
