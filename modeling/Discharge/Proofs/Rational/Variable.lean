import Discharge.Proofs.Normal.Every
import Discharge.Proofs.Normal.Irreducible
import Discharge.Proofs.Rational.Tree
import Discharge.Proofs.Rational.Pole

/-! Rational functions in the symbols as rational functions of one of them, with
rational functions in the others as coefficients. A polynomial without negative
exponents of the variable has a polynomial as value, and a monomial is a
coefficient times the power of the variable that stands in it. -/

namespace Discharge

namespace RationalFunction

open Polynomial

/-! ## The other symbols as coefficients -/

/-- The field of rational functions in the symbols other than `x`. -/
abbrev Coefficients (x : String) : Type := FractionRing (MvPolynomial {s : String // s ≠ x} ℚ)

instance (x : String) : Nontrivial (MvPolynomial {s : String // s ≠ x} ℚ) := inferInstance

instance (x : String) : NoZeroDivisors (MvPolynomial {s : String // s ≠ x} ℚ) := inferInstance

instance (x : String) : IsDomain (MvPolynomial {s : String // s ≠ x} ℚ) := inferInstance

instance (x : String) : CharZero (Coefficients x) := inferInstance

instance (x : String) : IsDomain (Coefficients x) := inferInstance

/-- A symbol as a polynomial in `x`. -/
noncomputable def symbolIn (x s : String) : (Coefficients x)[X] :=
  if other : s = x then X else C (algebraMap (MvPolynomial {s // s ≠ x} ℚ) _ (.X ⟨s, other⟩))

/-- A polynomial in the symbols as a polynomial in `x`. -/
noncomputable def polynomialIn (x : String) : MvPolynomial String ℚ →+* (Coefficients x)[X] :=
  MvPolynomial.eval₂Hom (algebraMap ℚ (Coefficients x)[X]) (symbolIn x)

theorem polynomialIn_injective (x : String) : Function.Injective (polynomialIn x) := by
  let regroup : MvPolynomial String ℚ →ₐ[ℚ] (MvPolynomial {s : String // s ≠ x} ℚ)[X] :=
    (MvPolynomial.optionEquivLeft ℚ {s : String // s ≠ x}).toAlgHom.comp
      (MvPolynomial.rename (Equiv.optionSubtypeNe x).symm)
  have grouped : Function.Injective regroup :=
    (MvPolynomial.optionEquivLeft ℚ _).injective.comp
      (MvPolynomial.rename_injective _ (Equiv.optionSubtypeNe x).symm.injective)
  have same : polynomialIn x = (mapRingHom (algebraMap (MvPolynomial {s : String // s ≠ x} ℚ)
      (Coefficients x))).comp regroup.toRingHom := by
    refine MvPolynomial.ringHom_ext' (RingHom.ext_rat _ _) fun s => ?_
    by_cases own : s = x
    · subst own
      simp [polynomialIn, symbolIn, regroup]
    · simp [polynomialIn, symbolIn, regroup, own]
  rw [same]
  exact (map_injective _ (IsFractionRing.injective _ _)).comp grouped

/-- A rational function in the symbols as a rational function of `x`. -/
noncomputable def inVariable (x : String) : RationalFunction →+* RatFunc (Coefficients x) :=
  IsFractionRing.lift (g := (algebraMap (Coefficients x)[X] (RatFunc (Coefficients x))).comp
    (polynomialIn x)) ((RatFunc.algebraMap_injective _).comp (polynomialIn_injective x))

theorem inVariable_var (x s : String) :
    inVariable x (var s) = algebraMap (Coefficients x)[X] (RatFunc (Coefficients x)) (symbolIn x s) := by
  rw [inVariable, var, IsFractionRing.lift_algebraMap]
  simp [polynomialIn]

variable {x : String}

theorem symbolIn_self (x : String) : symbolIn x x = X := dif_pos rfl

theorem symbolIn_other {s : String} (other : s ≠ x) : ∃ c : Coefficients x, c ≠ 0 ∧
    symbolIn x s = C c := by
  refine ⟨_, ?_, dif_neg other⟩
  rw [ne_eq, FaithfulSMul.algebraMap_eq_zero_iff]
  exact MvPolynomial.X_ne_zero _

theorem symbolIn_ne_zero (x s : String) : symbolIn x s ≠ 0 := by
  by_cases own : s = x
  · rw [own, symbolIn_self]
    exact X_ne_zero
  · obtain ⟨c, nonzero, value⟩ := symbolIn_other own
    rw [value]
    exact C_ne_zero.mpr nonzero

/-! ## Values along the variable -/

/-- A symbol is a polynomial in the variable, and all symbols but the variable
may be divided by. -/
noncomputable def along (x : String) : Valuation (RatFunc (Coefficients x)) where
  atom
    | .symbol s => algebraMap (Coefficients x)[X] _ (symbolIn x s)
    | _ => 0
  exp _ := 1
  exp_zero := rfl
  exp_add _ _ := (one_mul 1).symm
  known a := ∃ s, a = .symbol s
  invertible a := ∃ s, s ≠ x ∧ a = .symbol s
  isUnit := by
    rintro a ⟨s, -, rfl⟩
    exact (Univariate.algebraMap_ne_zero (symbolIn_ne_zero x s)).isUnit
  turning := False

theorem along_lawful (x : String) : (along x).Lawful := lawful_of_symbols rfl rfl

end RationalFunction

namespace Valuation

section Map

variable {K L : Type*} [Field K] [Algebra ℚ K] [Field L] [Algebra ℚ L]
  {v : Valuation K} {w : Valuation L} (φ : K →+* L)

theorem map_power (atom : ∀ a, φ (v.atom a) = w.atom a) (f : Atom × Int) :
    intPower (w.atom f.1) f.2 = φ (intPower (v.atom f.1) f.2) := by
  rw [intPower_eq_zpow, intPower_eq_zpow, map_zpow₀, atom]

/-- A homomorphism of fields takes the values under one valuation to those under
another if it does so for atoms and exponentials. -/
theorem map_monomial (atom : ∀ a, φ (v.atom a) = w.atom a) (exp : ∀ y, φ (v.exp y) = w.exp (φ y))
    (m : Monomial) : φ (v.monomial m) = w.monomial m :=
  (monomial_map φ (fun f _ => map_power φ atom f) (fun y => (exp y).symm) m
    (.of_forall (fun _ => trivial) m)).symm

theorem map_poly (atom : ∀ a, φ (v.atom a) = w.atom a) (exp : ∀ y, φ (v.exp y) = w.exp (φ y))
    (p : Poly) : φ (v.poly p) = w.poly p :=
  (poly_map φ (fun f _ => map_power φ atom f) (fun y => (exp y).symm) p
    (.of_forall (fun _ => trivial) p)).symm

end Map

end Valuation

namespace RationalFunction

open Polynomial

variable {x : String} {m : Monomial} {p : Poly} {fs : List (Atom × Int)}

theorem inVariable_atom (x : String) (a : Atom) :
    inVariable x (valuation.atom a) = (along x).atom a := by
  cases a with
  | symbol s => exact inVariable_var x s
  | _ => exact map_zero _

theorem inVariable_monomial (x : String) (m : Monomial) :
    inVariable x (valuation.monomial m) = (along x).monomial m :=
  Valuation.map_monomial _ (inVariable_atom x) (fun _ => map_one _) m

theorem inVariable_poly (x : String) (p : Poly) :
    inVariable x (valuation.poly p) = (along x).poly p :=
  Valuation.map_poly _ (inVariable_atom x) (fun _ => map_one _) p

/-! ## What is admitted -/

theorem admitsFactor_of_along {f : Atom × Int} (admitted : (along x).AdmitsFactor f) :
    valuation.AdmitsFactor f :=
  ⟨admitted.nonzero, admitted.fits, admitted.known, fun _ => admitted.known⟩

theorem admits_of_along (admitted : (along x).Admits m) : valuation.Admits m :=
  ⟨admitted.increasing, fun f member => admitsFactor_of_along (admitted.factor f member),
    admitted.exponent, admitted.turning, admitted.inner⟩

theorem admitsPoly_of_along (admitted : (along x).AdmitsPoly p) : valuation.AdmitsPoly p :=
  ⟨admitted.ordered, admitted.all.mono fun _ holds => admits_of_along holds⟩

/-- Without a negative exponent of the variable a monomial is admitted. -/
theorem admits_along (admitted : valuation.Admits m) (nonneg : 0 ≤ m.count (.symbol x)) :
    (along x).Admits m := by
  refine ⟨admitted.increasing, fun f member => ?_, admitted.exponent, admitted.turning,
    admitted.inner⟩
  have factor := admitted.factor f member
  refine ⟨factor.nonzero, factor.fits, factor.known, fun negative => ?_⟩
  obtain ⟨a, n⟩ := f
  obtain ⟨s, rfl⟩ := factor.known
  refine ⟨s, ?_, rfl⟩
  rintro rfl
  rw [Monomial.count_eq, Monomial.exponentIn_of_mem admitted.increasing member] at nonneg
  exact absurd negative (not_lt.mpr nonneg)

/-- The exponents of the variable are not negative. -/
theorem count_of_along (admitted : (along x).Admits m) : 0 ≤ m.count (.symbol x) := by
  by_contra negative
  have factor := admitted.of_count (a := .symbol x) (by omega)
  obtain ⟨s, other, same⟩ := factor.regular (not_le.mp negative)
  exact other (Atom.symbol.inj same).symm

theorem irreducible_of_admits (admitted : valuation.Admits m) : m.Irreducible := by
  have symbols : ∀ f ∈ m.factors, ∃ s, f.1 = .symbol s := fun f member =>
    (admitted.factor f member).known
  refine ⟨fun f member => (admitted.factor f member).nonzero, fun f member => ?_,
    fun f member => ?_, ?_⟩
  · obtain ⟨s, symbol⟩ := symbols f member
    rw [symbol]
    rfl
  · obtain ⟨s, symbol⟩ := symbols f member
    rw [symbol]
    rfl
  · rw [exp_eq_zero admitted]
    rfl

theorem reduced_of_admits (admitted : valuation.AdmitsPoly p) : p.Reduced :=
  ⟨admitted.ordered, admitted.all.mono fun _ holds => irreducible_of_admits holds⟩

/-! ## Powers of the variable -/

theorem factors_along (increasing : Monomial.Increasing fs)
    (each : ∀ f ∈ fs, valuation.AdmitsFactor f) : ∃ c : Coefficients x, c ≠ 0 ∧
      (along x).factors fs = RatFunc.C c * RatFunc.X ^ Monomial.exponentIn fs (.symbol x) := by
  induction fs with
  | nil => exact ⟨1, one_ne_zero, by simp⟩
  | cons f fs ih =>
    obtain ⟨a, n⟩ := f
    obtain ⟨behind, increasing⟩ := Monomial.increasing_cons.mp increasing
    obtain ⟨head, tail⟩ := List.forall_mem_cons.mp each
    obtain ⟨c, nonzero, value⟩ := ih increasing tail
    obtain ⟨s, rfl⟩ := head.known
    rw [Valuation.factors_cons, Monomial.exponentIn_cons, value, intPower_eq_zpow]
    change ∃ d : Coefficients x, d ≠ 0 ∧ algebraMap (Coefficients x)[X] _ (symbolIn x s) ^ n * _ = _
    by_cases own : s = x
    · subst own
      refine ⟨c, nonzero, ?_⟩
      rw [if_pos rfl, Monomial.exponentIn_of_behind behind, symbolIn_self, RatFunc.algebraMap_X,
        zpow_zero]
      ring
    · have other : Atom.symbol x ≠ .symbol s := fun same => own (Atom.symbol.inj same).symm
      obtain ⟨d, regular, symbol⟩ := symbolIn_other own
      refine ⟨d ^ n * c, mul_ne_zero (zpow_ne_zero n regular) nonzero, ?_⟩
      rw [if_neg other, symbol, RatFunc.algebraMap_C, map_mul, map_zpow₀]
      ring

/-- A monomial is a coefficient times a power of the variable. -/
theorem monomial_along (x : String) (admitted : valuation.Admits m) :
    ∃ c : Coefficients x, c ≠ 0 ∧
      (along x).monomial m = RatFunc.C c * RatFunc.X ^ m.count (.symbol x) := by
  obtain ⟨c, nonzero, value⟩ := factors_along admitted.increasing admitted.factor
  refine ⟨c, nonzero, ?_⟩
  rw [Valuation.monomial_eq, value]
  exact mul_one _

end RationalFunction

end Discharge
