import Mathlib
import Discharge.Proofs.Canonical.Units
import Discharge.Proofs.Denominator.Simplification
import Discharge.Proofs.Denominator.Values

/-! Arithmetic in algebras that may have divisors of zero. Products, powers and reduced
monomials have the values that they stand for wherever all atoms may be divided by. A
quotient is brought to canonical form by a multiplication of both sides with conjugates,
and these may be divisors of zero without being zero: two roots that are not told to be
equal have a difference that is not the empty polynomial. The canonical form is a form of
the quotient up to such factors only, and where both sides become multiples of each
other the factors are lost. -/

namespace Discharge

open Fraction (conjugators maxRounds)

namespace Valuation

variable {A : Type*} [CommRing A] [Algebra ℚ A] {v : Valuation A} {m : Monomial}
  {num den p : Poly} {r : Fraction} {x u : A}

/-- All atoms that may occur may be divided by. -/
def InvertibleAtoms (v : Valuation A) : Prop := ∀ a, v.known a → v.invertible a

/-! ## Monomials that are divided by -/

theorem Admits.divisible (invertible : v.InvertibleAtoms) (admitted : v.Admits m) :
    v.divisible.Admits m := by
  refine ⟨admitted.increasing, fun f member => ?_, admitted.exponent, admitted.turning,
    admitted.inner⟩
  have factor := admitted.factor f member
  exact ⟨factor.nonzero, factor.fits, ⟨factor.known, invertible f.1 factor.known⟩, factor.regular⟩

theorem Admits.reciprocal_isUnit (invertible : v.InvertibleAtoms) (admitted : v.Admits m)
    (negatable : m.isInvertible = true) :
    v.Admits m.reciprocal ∧ IsUnit (v.monomial m.reciprocal) := by
  have inverse := (admitted.divisible invertible).divisible_reciprocal negatable
  exact ⟨inverse.of_divisible, inverse.isUnit⟩

/-! ## What both sides of a quotient are multiplied by -/

/-- The value of all that the denominator is multiplied by to remove its surds. -/
noncomputable def conjugation (v : Valuation A) (rounds : Nat) (den : Poly) : A :=
  ((conjugators rounds den).map v.poly).prod

/-- Both sides are multiples of others by the same value. -/
structure Multiplied (v : Valuation A) (num den : Poly) (x : A) (q : Poly × Poly) : Prop where
  top : v.AdmitsPoly q.1
  bottom : v.AdmitsPoly q.2
  above : v.poly q.1 = v.poly num * x
  below : v.poly q.2 = v.poly den * x

theorem Multiplied.plain (top : v.AdmitsPoly num) (bottom : v.AdmitsPoly den) (rounds : Nat)
    (none : den.firstSurd? = none) :
    v.Multiplied num den (v.conjugation rounds den) (num, den) := by
  have empty : conjugators rounds den = [] := by
    cases rounds with
    | zero => rfl
    | succ rounds => rw [conjugators, none]
  have one : v.conjugation rounds den = 1 := by
    rw [conjugation, empty]
    rfl
  exact ⟨top, bottom, by rw [one, mul_one], by rw [one, mul_one]⟩

section

variable (lawful : v.Lawful)

include lawful

/-- Removing surds multiplies both sides by the conjugates. -/
theorem rationalise_multiplied (rounds : Nat) (top : v.AdmitsPoly num)
    (bottom : v.AdmitsPoly den) :
    Yields (Fraction.rationalise rounds num den)
      (v.Multiplied num den (v.conjugation rounds den)) := by
  induction rounds generalizing num den with
  | zero =>
    rw [Fraction.rationalise]
    split
    · exact .plain top bottom 0 ‹_›
    · trivial
  | succ rounds ih =>
    rw [Fraction.rationalise]
    split
    · exact .plain top bottom _ ‹_›
    rename_i surd found
    have factor := conjugator_admitted bottom found
    refine Yields.bind_ok fun num' first => Yields.bind_ok fun den' second => ?_
    obtain ⟨top', above⟩ := (mul_ensures lawful top factor).of_ok first
    obtain ⟨bottom', below⟩ := (mul_ensures lawful bottom factor).of_ok second
    have product : v.conjugation (rounds + 1) den =
        v.poly (Fraction.conjugator den surd) * v.conjugation rounds den' := by
      rw [conjugation, conjugators, found]
      dsimp only
      rw [second, List.map_cons, List.prod_cons]
      rfl
    dsimp only
    split
    · trivial
    refine (ih top' bottom').mono fun q multiplied => ?_
    refine ⟨multiplied.top, multiplied.bottom, ?_, ?_⟩
    · rw [multiplied.above, above, product, mul_assoc]
    · rw [multiplied.below, below, product, mul_assoc]

variable (invertible : v.InvertibleAtoms)

include invertible

/-- Dividing by the common monomial multiplies both sides by a unit. -/
theorem cancelMonomial_multiplied (top : v.AdmitsPoly num) (bottom : v.AdmitsPoly den) :
    Yields (Fraction.cancelMonomial num den) fun q => ∃ u, IsUnit u ∧ v.Multiplied num den u q := by
  unfold Fraction.cancelMonomial
  dsimp only
  split
  · exact ⟨1, isUnit_one, top, bottom, (mul_one _).symm, (mul_one _).symm⟩
  · refine Yields.bind_ok fun k inverted => ?_
    obtain ⟨negatable, rfl⟩ := Monomial.inverse_eq_ok inverted
    obtain ⟨inverse, unit⟩ := bottom.commonMonomial.reciprocal_isUnit invertible negatable
    refine Yields.bind_ok fun num' first => Yields.bind_ok fun den' second => ?_
    obtain ⟨top', above⟩ := (shift_ensures lawful top inverse).of_ok first
    obtain ⟨bottom', below⟩ := (shift_ensures lawful bottom inverse).of_ok second
    exact ⟨_, unit, top', bottom', above, below⟩

/-- A denominator of one term is divided out. -/
theorem shift_reciprocal_value {c : Rat} (top : v.AdmitsPoly num)
    (bottom : v.AdmitsPoly ⟨[(m, c)]⟩) (negatable : m.isInvertible = true)
    (shifted : num.shift m.reciprocal = .ok p) :
    v.poly (p.scale c⁻¹) * v.poly ⟨[(m, c)]⟩ = v.poly num ∧ IsUnit (v.poly ⟨[(m, c)]⟩) := by
  have nonzero : c ≠ 0 := bottom.ordered.nonzero (m, c) (List.mem_singleton.mpr rfl)
  have admitted : v.Admits m := bottom.all (m, c) (List.mem_singleton.mpr rfl)
  have divisible := admitted.divisible invertible
  have inverse := divisible.monomial_mul_reciprocal negatable
  have factor := (admitted.reciprocal_isUnit invertible negatable).1
  have value := ((shift_ensures lawful top factor).of_ok shifted).2
  have single : v.poly ⟨[(m, c)]⟩ = algebraMap ℚ A c * v.monomial m := by simp [poly_eq]
  have scalar : algebraMap ℚ A c⁻¹ * algebraMap ℚ A c = 1 := by
    rw [← map_mul, inv_mul_cancel₀ nonzero, map_one]
  rw [single]
  refine ⟨?_, (nonzero.isUnit.map _).mul divisible.isUnit⟩
  rw [poly_scale, value]
  linear_combination v.poly num * scalar +
    v.poly num * algebraMap ℚ A c⁻¹ * algebraMap ℚ A c * inverse

end

/-! ## Quotients -/

/-- The monic form is the ratio of the sides, or the two sides scaled. -/
theorem monic_sides (num den : Poly) :
    (∃ c ratio, (den.Ordered → c ≠ 0) ∧ Fraction.monic num den = .constant ratio ∧
        num.scale c = (den.scale c).scale ratio) ∨
      ∃ c, Fraction.monic num den = ⟨num.scale c, den.scale c⟩ := by
  have nonzero : den.Ordered → (den.leading?.getD 1)⁻¹ ≠ 0 := by
    intro ordered
    obtain ⟨_ | ⟨t, ts⟩⟩ := den
    · simp [Poly.leading?]
    · simpa [Poly.leading?] using ordered.nonzero t List.mem_cons_self
  unfold Fraction.monic
  dsimp only
  split
  · rename_i ratio first
    split
    · rename_i multiple
      exact .inl ⟨_, ratio, nonzero, rfl, multiple.2⟩
    · exact .inr ⟨_, rfl⟩
  · exact .inr ⟨_, rfl⟩

/-- The canonical form of a quotient is a form of it up to the conjugates. It is one
unless both sides are multiples of each other when the surds are removed. -/
theorem make_value (lawful : v.Lawful) (invertible : v.InvertibleAtoms) (top : v.AdmitsPoly num)
    (bottom : v.AdmitsPoly den) (ran : Fraction.make num den = .ok r) :
    v.poly r.num * v.poly den * v.conjugation maxRounds den =
        v.poly num * v.poly r.den * v.conjugation maxRounds den ∧
      (r.constant? = none → v.poly r.num * v.poly den = v.poly num * v.poly r.den) := by
  -- An equation carries the factor along; the second part needs no cancelling.
  have weaken {a b x : A} (equal : a = b) : a * x = b * x := congrArg (· * x) equal
  obtain ⟨empty, rfl⟩ | ⟨-, q, q', first, second, last⟩ := Fraction.make_cases ran
  · have equal : v.poly Fraction.zero.num * v.poly den = v.poly num * v.poly Fraction.zero.den := by
      rw [poly_of_isZero empty, zero_mul]
      exact (congrArg (· * v.poly den) v.poly_zero).trans (zero_mul _)
    exact ⟨weaken equal, fun _ => equal⟩
  have rational := (rationalise_multiplied lawful _ top bottom).of_ok first
  obtain ⟨u, unit, cancelled⟩ :=
    (cancelMonomial_multiplied lawful invertible rational.top rational.bottom).of_ok second
  generalize v.conjugation maxRounds den = x at rational
  have above : v.poly q'.1 = v.poly num * (x * u) := by
    rw [cancelled.above, rational.above, mul_assoc]
  have below : v.poly q'.2 = v.poly den * (x * u) := by
    rw [cancelled.below, rational.below, mul_assoc]
  rcases last with ⟨m, c, p, single, negatable, shifted, rfl⟩ | ⟨-, rfl⟩
  · obtain ⟨num', den'⟩ := q'
    obtain rfl := singleTerm_eq single
    obtain ⟨value, regular⟩ :=
      shift_reciprocal_value lawful invertible cancelled.top cancelled.bottom negatable shifted
    rw [below] at regular
    have factor : IsUnit (x * u) := isUnit_of_mul_isUnit_right regular
    have equal : v.poly (p.scale c⁻¹) * v.poly den = v.poly num := by
      refine factor.mul_right_cancel ?_
      rw [mul_assoc, ← below, value, above]
    have sides : v.poly (Fraction.ofPoly (p.scale c⁻¹)).num * v.poly den =
        v.poly num * v.poly (Fraction.ofPoly (p.scale c⁻¹)).den := by
      change v.poly (p.scale c⁻¹) * v.poly den = v.poly num * v.poly .one
      rw [equal, poly_one, mul_one]
    exact ⟨weaken sides, fun _ => sides⟩
  · rcases monic_sides q'.1 q'.2 with ⟨c, ratio, nonzero, constant, multiple⟩ | ⟨c, scaled⟩
    · have equal := congrArg v.poly multiple
      rw [poly_scale, poly_scale, poly_scale, above, below] at equal
      have scalar : IsUnit (algebraMap ℚ A c) :=
        (nonzero cancelled.bottom.ordered).isUnit.map (algebraMap ℚ A)
      rw [constant]
      refine ⟨?_, fun none => ?_⟩
      · change v.poly (.constant ratio) * v.poly den * x = v.poly num * v.poly .one * x
        rw [poly_constant, poly_one]
        refine (scalar.mul unit).mul_left_cancel ?_
        linear_combination -equal
      · rw [Fraction.constant?_constant] at none
        cases none
    · have equal : v.poly (Fraction.monic q'.1 q'.2).num * v.poly den =
          v.poly num * v.poly (Fraction.monic q'.1 q'.2).den := by
        rw [scaled]
        dsimp only
        rw [poly_scale, poly_scale, above, below]
        ring
      exact ⟨weaken equal, fun _ => equal⟩

end Valuation

/-! ## Roots of integers with their principal values -/

/-- A symbol, a constant or a root of a positive integer. -/
def Atom.IsNumeric : Atom → Prop
  | .symbol _ | .pi | .imaginary => True
  | .root p k => 2 ≤ k ∧ fitsInt64 k = true ∧ ∃ n : ℕ, 0 < n ∧ p = .constant (n : ℕ)
  | _ => False

namespace Interpretation

variable (symbol : String → ℂ)

theorem principal_root (n k : ℕ) : Atom.value (principal symbol) (.root (.constant (n : ℕ)) k) =
    (((n : ℝ) ^ (1 / (k : ℝ)) : ℝ) : ℂ) := by
  have radicand : (Poly.constant (n : ℕ)).value (principal symbol) = (n : ℂ) := by
    rw [← (principal_rooted symbol).poly_value, Valuation.poly_constant, eq_ratCast,
      Rat.cast_natCast]
  have power : (n : ℂ) ^ (1 / (k : ℂ)) = (((n : ℝ) ^ (1 / (k : ℝ)) : ℝ) : ℂ) := by
    rw [Complex.ofReal_cpow (Nat.cast_nonneg n)]
    push_cast
    rfl
  rw [Atom.value, radicand]
  split
  · rename_i two
    rw [← power, two]
    exact congrArg ((n : ℂ) ^ ·) (by norm_num)
  · exact power

end Interpretation

/-- Principal values, with symbols that are one. -/
noncomputable def principalRoots : Valuation ℂ :=
  { (Interpretation.principal_rooted fun _ => 1).valuation with
    known := Atom.IsNumeric
    inner := fun _ => True }

theorem principalRoots_root (n k : ℕ) : principalRoots.atom (.root (.constant (n : ℕ)) k) =
    (((n : ℝ) ^ (1 / (k : ℝ)) : ℝ) : ℂ) := Interpretation.principal_root _ n k

theorem principalRoots_lawful : principalRoots.Lawful where
  imaginary _ := (Interpretation.principal_rooted fun _ => 1).lawful.imaginary
    (Interpretation.principal_rooted fun _ => 1).knowsAngles.imaginary
  root p k known := by
    obtain ⟨proper, fits, n, -, rfl⟩ := known
    have law := (Interpretation.principal_rooted fun _ => 1).lawful.root (.constant (n : ℕ)) k
      (((Interpretation.principal_rooted fun _ => 1).known_root _ k).mpr
        ⟨proper, fits, .constant _⟩)
    rw [Valuation.poly_constant] at law ⊢
    exact law
  index p k known := known.2.1
  radicand p k known proper := by
    obtain ⟨-, -, n, -, rfl⟩ := known
    rw [Poly.constant?_constant] at proper
    cases proper
  turn _ _ angle p found := by
    have known : principalRoots.KnowsAngles :=
      { imaginary := trivial
        surd := fun n surd => ⟨le_rfl, rfl, n, (Valuation.prime_of_surd surd).pos, rfl⟩ }
    obtain ⟨admitted, value⟩ :=
      (Interpretation.principal_rooted fun _ => 1).unitRoot_value rfl known found
    refine ⟨admitted, value.trans ?_⟩
    change _ = (Interpretation.principal fun _ => 1).apply .exp (_ *
      (Atom.value _ .pi * Atom.value _ .imaginary))
    rw [Atom.value, Atom.value, eq_ratCast]

theorem principalRoots_invertible : principalRoots.InvertibleAtoms := by
  intro a known
  change Atom.value (Interpretation.principal fun _ => 1) a ≠ 0
  cases a with
  | symbol s =>
    rw [Atom.value]
    exact one_ne_zero
  | pi =>
    rw [Atom.value]
    exact Complex.ofReal_ne_zero.mpr Real.pi_ne_zero
  | imaginary =>
    rw [Atom.value]
    exact Complex.I_ne_zero
  | root p k =>
    obtain ⟨-, -, n, positive, rfl⟩ := known
    rw [Interpretation.principal_root]
    exact Complex.ofReal_ne_zero.mpr (Real.rpow_pos_of_pos (by exact_mod_cast positive) _).ne'
  | ln r => exact known.elim
  | exp r => exact known.elim
  | power b e => exact known.elim

/-! ## Arithmetic -/

/-- Products, powers, shifts and reduced monomials have the values that they stand for.
Both sides of a quotient have those of its canonical form up to the conjugates that
remove its surds, and without them if the canonical form is no constant or the conjugates
do not divide zero. -/
theorem arithmetic_values {A : Type*} [CommRing A] [Algebra ℚ A] (v : Valuation A)
    (lawful : v.Lawful) (invertible : v.InvertibleAtoms) :
    (∀ p q r, v.AdmitsPoly p → v.AdmitsPoly q → p.mul q = .ok r →
      v.poly r = v.poly p * v.poly q) ∧
    (∀ p n r, v.AdmitsPoly p → p.pow n = .ok r → v.poly r = v.poly p ^ n) ∧
    (∀ p m r, v.AdmitsPoly p → v.Admits m → p.shift m = .ok r →
      v.poly r = v.poly p * v.monomial m) ∧
    (∀ m r, v.Admits m → m.reduce = .ok r → v.poly r = v.monomial m) ∧
    ∀ num den r, v.AdmitsPoly num → v.AdmitsPoly den → Fraction.make num den = .ok r →
        v.poly r.num * v.poly den * v.conjugation maxRounds den =
            v.poly num * v.poly r.den * v.conjugation maxRounds den ∧
          (r.constant? = none ∨ v.conjugation maxRounds den ∈ nonZeroDivisors A →
            v.poly r.num * v.poly den = v.poly num * v.poly r.den) := by
  refine ⟨fun p q r left right ran => ?_, fun p n r base ran => ?_, fun p m r left right ran => ?_,
    fun m r admitted ran => ?_, fun num den r top bottom ran => ?_⟩
  · exact ((Valuation.mul_ensures lawful left right).of_ok ran).2
  · exact ((Valuation.powWith_ensures (Valuation.reduce_reduces lawful) base n).of_ok ran).2
  · exact ((Valuation.shift_ensures lawful left right).of_ok ran).2
  · exact ((Valuation.reduce_reduces lawful m admitted).of_ok ran).2
  · obtain ⟨product, proper⟩ := Valuation.make_value lawful invertible top bottom ran
    refine ⟨product, fun condition => condition.elim proper fun regular => ?_⟩
    exact (mul_cancel_right_mem_nonZeroDivisors regular).mp product

/-- `sqrt(2)`. -/
def sqrtTwo : Atom := .root (.constant (2 : ℕ)) 2

theorem known_sqrtTwo : principalRoots.known sqrtTwo := ⟨le_rfl, rfl, 2, two_pos, rfl⟩

theorem principalRoots_sqrtTwo : principalRoots.atom sqrtTwo = (√2 : ℝ) := by
  rw [sqrtTwo, principalRoots_root, Real.sqrt_eq_rpow]
  norm_num

/-- `x + sqrt(2)`. -/
def surdSum : Poly := (Poly.ofAtom (.symbol "x")).add (.ofAtom sqrtTwo)

/-- `x - sqrt(2)`. -/
def surdDifference : Poly := (Poly.ofAtom (.symbol "x")).add (Poly.ofAtom sqrtTwo).neg

/-- `x^2 - 2`. -/
def surdNorm : Poly := ⟨[(.one, -2), (.ofAtom (.symbol "x") 2, 1)]⟩

theorem surdSum_admitted : principalRoots.AdmitsPoly surdSum :=
  .add (.ofAtom trivial) (.ofAtom known_sqrtTwo)

theorem arithmetic_values_surdSum :
    (surdSum.mul surdDifference = .ok surdNorm ∧ principalRoots.poly surdNorm =
        principalRoots.poly surdSum * principalRoots.poly surdDifference) ∧
      Fraction.make (surdSum.scale 2) surdSum = .ok (.constant 2) ∧
      principalRoots.poly (Fraction.constant 2).num * principalRoots.poly surdSum =
        principalRoots.poly (surdSum.scale 2) * principalRoots.poly (Fraction.constant 2).den := by
  obtain ⟨products, -, -, -, quotients⟩ :=
    arithmetic_values principalRoots principalRoots_lawful principalRoots_invertible
  have norm : surdSum.mul surdDifference = .ok surdNorm := by decide_cbv
  have made : Fraction.make (surdSum.scale 2) surdSum = .ok (.constant 2) := by decide_cbv
  have difference : principalRoots.AdmitsPoly surdDifference :=
    .add (.ofAtom trivial) (.scale (.ofAtom known_sqrtTwo) _)
  have value : principalRoots.conjugation maxRounds surdSum ≠ 0 := by
    have list : conjugators maxRounds surdSum = [surdDifference] := by decide_cbv
    have symbol : principalRoots.atom (.symbol "x") = 1 := by
      change Atom.value (Interpretation.principal fun _ => 1) (.symbol "x") = 1
      rw [Atom.value]
      rfl
    rw [Valuation.conjugation, list, List.map_singleton, List.prod_singleton, surdDifference,
      Valuation.poly_add, Valuation.poly_neg, Valuation.poly_ofAtom, Valuation.poly_ofAtom, symbol,
      principalRoots_sqrtTwo, ← sub_eq_add_neg, ← Complex.ofReal_one, ← Complex.ofReal_sub]
    exact Complex.ofReal_ne_zero.mpr (sub_ne_zero.mpr Real.one_lt_sqrt_two.ne)
  exact ⟨⟨norm, products _ _ _ surdSum_admitted difference norm⟩, made,
    (quotients _ _ _ (surdSum_admitted.scale 2) surdSum_admitted made).2
      (.inr (mem_nonZeroDivisors_of_ne_zero value))⟩

/-! ## Conjugates that divide zero -/

/-- `4^(1/4)`, which is the number `sqrt(2)` again. -/
def fourthRoot : Atom := .root (.constant (4 : ℕ)) 4

/-- `sqrt(2) + 4^(1/4)`. -/
def dependentSum : Poly := (Poly.ofAtom sqrtTwo).add (.ofAtom fourthRoot)

/-- `(4^(1/4))^2·sqrt(2) + (4^(1/4))^3`. -/
def dependentMultiple : Poly :=
  ⟨[(⟨[(sqrtTwo, 1), (fourthRoot, 2)], .zero⟩, 1), (.ofAtom fourthRoot 3, 1)]⟩

theorem known_fourthRoot : principalRoots.known fourthRoot :=
  ⟨by decide, rfl, 4, four_pos, rfl⟩

theorem principalRoots_fourthRoot : principalRoots.atom fourthRoot = (√2 : ℝ) := by
  have square : ((4 : ℕ) : ℝ) = (2 : ℝ) ^ (2 : ℝ) := by norm_num
  rw [fourthRoot, principalRoots_root, square, ← Real.rpow_mul two_pos.le, Real.sqrt_eq_rpow]
  norm_num

theorem dependentSum_admitted : principalRoots.AdmitsPoly dependentSum :=
  .add (.ofAtom known_sqrtTwo) (.ofAtom known_fourthRoot)

theorem dependentMultiple_admitted : principalRoots.AdmitsPoly dependentMultiple ∧
    principalRoots.poly dependentMultiple = 2 * principalRoots.poly dependentSum := by
  have square : principalRoots.AdmitsPoly (.term (.ofAtom fourthRoot 2) 1) :=
    .term (.power fun _ => ⟨two_ne_zero, rfl, known_fourthRoot, by omega⟩) 1
  have product : (Poly.term (.ofAtom fourthRoot 2) 1).mul dependentSum = .ok dependentMultiple := by
    decide_cbv
  obtain ⟨admitted, value⟩ :=
    (Valuation.mul_ensures principalRoots_lawful square dependentSum_admitted).of_ok product
  have two : principalRoots.monomial (.ofAtom fourthRoot 2) = 2 := by
    have real : ((√2 : ℝ) : ℂ) ^ 2 = 2 := by
      rw [← Complex.ofReal_pow, Real.sq_sqrt two_pos.le]
      norm_num
    have plain : principalRoots.monomial (.ofAtom fourthRoot 2) =
        intPower (principalRoots.atom fourthRoot) 2 := by
      simp [Valuation.monomial_eq, Monomial.ofAtom, Valuation.exp_zero]
    rw [plain, principalRoots_fourthRoot, intPower_of_nonneg (by decide)]
    exact real
  rw [Valuation.poly_term, map_one, one_mul, two] at value
  exact ⟨admitted, value⟩

/-- The numerator is twice the denominator, and not zero, but their quotient is brought
to the constant `-2`. -/
theorem dependent_quotient_negated :
    Fraction.make dependentMultiple dependentSum = .ok (.constant (-2)) ∧
      principalRoots.Lawful ∧ principalRoots.InvertibleAtoms ∧
      principalRoots.AdmitsPoly dependentMultiple ∧ principalRoots.AdmitsPoly dependentSum ∧
      principalRoots.poly (Fraction.constant (-2)).num * principalRoots.poly dependentSum ≠
        principalRoots.poly dependentMultiple *
          principalRoots.poly (Fraction.constant (-2)).den := by
  obtain ⟨admitted, twice⟩ := dependentMultiple_admitted
  refine ⟨by decide_cbv, principalRoots_lawful, principalRoots_invertible, admitted,
    dependentSum_admitted, ?_⟩
  have sum : principalRoots.poly dependentSum = (2 * √2 : ℝ) := by
    rw [dependentSum, Valuation.poly_add, Valuation.poly_ofAtom, Valuation.poly_ofAtom,
      principalRoots_sqrtTwo, principalRoots_fourthRoot, ← Complex.ofReal_add, ← two_mul]
  have nonzero : principalRoots.poly dependentSum ≠ 0 := by
    rw [sum]
    exact Complex.ofReal_ne_zero.mpr (by positivity)
  change principalRoots.poly (.constant (-2)) * _ ≠ _ * principalRoots.poly .one
  rw [twice, Valuation.poly_constant, Valuation.poly_one, eq_ratCast]
  push_cast
  intro same
  exact nonzero (by linear_combination -same / 4)

end Discharge
