import Mathlib
import Discharge.Proofs.Rational.Whole
import Discharge.Proofs.Denominator.Regular
import Discharge.Proofs.Trail

/-! Limits of rational functions at finite points are exact. Clearing the
negative powers of the variable leaves two polynomials. Where both vanish, a
round of L'Hôpital's rule keeps the poles and the values of their quotient and
lowers the order to which each of them vanishes, so that running out of rounds
tells that both orders exceed the number of rounds. -/

namespace Discharge

open Failure (IsRefusal)
open RationalFunction Univariate

/-! ## Clearing negative powers -/

namespace Limit

/-- Both sides multiplied by the power of the variable that leaves no negative
exponent. -/
def cleared (r : Fraction) (x : String) : Outcome (Poly × Poly) := do
  let lift := Monomial.ofAtom (.symbol x) (← machineInt "negate" (-lowestPower r x))
  let num ← r.num.shift lift
  return (num, ← r.den.shift lift)

/-- One round: the values of both sides, and another round where both vanish. -/
theorem finite_eq (guards : Guards) (x : String) (point : Expr) (rounds : Nat) (r : Fraction) :
    finite guards x point rounds r = if !r.mentions x then .ok r else (do
      let q ← cleared r x
      let top ← evaluate q.1 x point guards.maxPower
      let bottom ← evaluate q.2 x point guards.maxPower
      if !bottom.isZero then top.div bottom
      else if !top.isZero then
        throw (.divergent (top.toExpr.render ++ " / 0 as " ++ x ++ " -> " ++ point.render))
      else match rounds with
        | 0 => throw (.indeterminate ("0/0 as " ++ x ++ " -> " ++ point.render ++ " after "
            ++ toString guards.rounds ++ " rounds of L'Hopital"))
        | rounds + 1 => do
          let top ← differentiate q.1 x guards.maxPower
          let bottom ← differentiate q.2 x guards.maxPower
          finite guards x point rounds (← top.div bottom)) := by
  simp only [cleared, bind_assoc]
  -- The equation of `finite` holds by computation once the rounds are zero or a successor.
  cases rounds with
  | zero => rfl
  | succ rounds => rfl

/-- The least exponent is zero or attained. -/
theorem lowestPower_spec (r : Fraction) (x : String) :
    lowestPower r x ≤ 0 ∧
      (∀ t ∈ r.num.terms ++ r.den.terms, lowestPower r x ≤ t.1.count (.symbol x)) ∧
      (lowestPower r x = 0 ∨
        ∃ t ∈ r.num.terms ++ r.den.terms, t.1.count (.symbol x) = lowestPower r x) := by
  unfold lowestPower
  generalize r.num.terms ++ r.den.terms = ts
  have run : ∀ (ts : List (Monomial × Rat)) (low : Int),
      let least := ts.foldl (fun low t => min low (t.1.count (.symbol x))) low
      least ≤ low ∧ (∀ t ∈ ts, least ≤ t.1.count (.symbol x)) ∧
        (least = low ∨ ∃ t ∈ ts, t.1.count (.symbol x) = least) := by
    intro ts
    induction ts with
    | nil => intro low; simp
    | cons t ts ih =>
      intro low
      obtain ⟨below, all, attained⟩ := ih (min low (t.1.count (.symbol x)))
      simp only [List.foldl_cons, List.forall_mem_cons]
      refine ⟨by omega, ⟨by omega, all⟩, ?_⟩
      rcases attained with same | ⟨u, member, same⟩
      · rcases min_choice low (t.1.count (.symbol x)) with left | right
        · exact .inl (same.trans left)
        · exact .inr ⟨t, List.mem_cons_self, (same.trans right).symm⟩
      · exact .inr ⟨u, List.mem_cons_of_mem _ member, same⟩
  exact run ts 0

end Limit

namespace RationalFunction

open scoped Polynomial

variable {x : String} {r : Fraction} {p q num den : Poly} {m : Monomial} {t : Monomial × Rat}
  {f : RationalFunction}

theorem count_ofAtom (a : Atom) (n : Int) : (Monomial.ofAtom a n).count a = n := by
  rw [Monomial.count_eq, Monomial.ofAtom]
  split
  · rename_i zero
    rw [zero, Monomial.exponentIn_nil]
  · rw [Monomial.exponentIn_cons, if_pos rfl]

theorem admits_power (s : String) {n : Int} (fits : fitsInt64 n = true) :
    valuation.Admits (.ofAtom (.symbol s) n) :=
  .power fun nonzero => ⟨nonzero, fits, ⟨s, rfl⟩, fun _ => ⟨s, rfl⟩⟩

theorem monomial_variable_power (x : String) (n : Int) :
    (along x).monomial (.ofAtom (.symbol x) n) = RatFunc.X ^ n := by
  rw [Valuation.monomial_eq, Monomial.ofAtom]
  split
  · rename_i zero
    rw [zero, zpow_zero]
    exact mul_one _
  · rw [Valuation.factors_cons, Valuation.factors_nil, intPower_eq_zpow, mul_one,
      ← RatFunc.algebraMap_X, ← symbolIn_self]
    exact mul_one _

/-- The exponents of the product of a term with a power of the variable. -/
theorem count_shifted {n : Int} {k : Monomial} (admitted : valuation.Admits t.1)
    (fits : fitsInt64 n = true) (combined : t.1.combine (.ofAtom (.symbol x) n) = .ok k) :
    valuation.Admits k ∧ k.count (.symbol x) = t.1.count (.symbol x) + n := by
  have power := admits_power x fits
  refine ⟨((Valuation.combine_ensures admitted power).of_ok combined).1, ?_⟩
  rw [Valuation.count_combine admitted power combined, count_ofAtom]

/-- A shift by a power of the variable multiplies the value by it. -/
theorem shift_variable_power {l : Nat} (admitted : valuation.AdmitsPoly p)
    (fits : fitsInt64 l = true) (above : ∀ t ∈ p.terms, -(l : Int) ≤ t.1.count (.symbol x))
    (ran : p.shift (.ofAtom (.symbol x) l) = .ok q) :
    (along x).AdmitsPoly q ∧ (along x).poly q = (along x).poly p * RatFunc.X ^ l := by
  constructor
  · refine Valuation.shift_admits (along_lawful x) (fun t member k combined => ?_) ran
    obtain ⟨product, count⟩ := count_shifted (admitted.all t member) fits combined
    have least := above t member
    exact admits_along product (by omega)
  · have value := ((Valuation.shift_ensures dividing.lawful admitted (admits_power x fits)).of_ok ran).2
    rw [← inVariable_poly, value, map_mul, inVariable_poly, inVariable_monomial,
      monomial_variable_power, zpow_natCast]

/-- Clearing multiplies both sides by one power of the variable, which is no
greater than needed. -/
theorem cleared_spec (top : valuation.AdmitsPoly r.num) (bottom : valuation.AdmitsPoly r.den)
    (ran : Limit.cleared r x = .ok (num, den)) :
    ∃ l : Nat, Limit.lowestPower r x = -l ∧ (along x).AdmitsPoly num ∧ (along x).AdmitsPoly den ∧
      (along x).poly num = (along x).poly r.num * RatFunc.X ^ l ∧
      (along x).poly den = (along x).poly r.den * RatFunc.X ^ l := by
  obtain ⟨low, below, -⟩ := Limit.lowestPower_spec r x
  obtain ⟨l, lift⟩ := Int.eq_ofNat_of_zero_le (show 0 ≤ -Limit.lowestPower r x by omega)
  unfold Limit.cleared at ran
  obtain ⟨n, negated, ran⟩ := bind_eq_ok ran
  obtain ⟨fits', rfl⟩ := machineInt_eq_ok negated
  rw [lift] at fits' ran
  obtain ⟨num', first, ran⟩ := bind_eq_ok ran
  obtain ⟨den', second, ran⟩ := bind_eq_ok ran
  cases ran
  have least : ∀ t ∈ r.num.terms ++ r.den.terms, -(l : Int) ≤ t.1.count (.symbol x) := by
    intro t member
    have bound := below t member
    omega
  obtain ⟨above, above'⟩ := List.forall_mem_append.mp least
  obtain ⟨left, value⟩ := shift_variable_power top fits' above first
  obtain ⟨right, value'⟩ := shift_variable_power bottom fits' above' second
  exact ⟨l, by omega, left, right, value, value'⟩

/-! ## What a quotient does to its sides -/

/-- The polynomial is another one times a coefficient, divided by a power of the
variable that bounds its negative exponents. -/
structure Divided (x : String) (k : Nat) (u : Coefficients x) (p q : Poly) : Prop where
  admitted : valuation.AdmitsPoly q
  bound : ∀ t ∈ q.terms, -(k : Int) ≤ t.1.count (.symbol x)
  value : (along x).poly q * RatFunc.X ^ k = RatFunc.C u * (along x).poly p

variable {k : Nat} {u : Coefficients x}

theorem Divided.refl (admitted : (along x).AdmitsPoly p) : Divided x 0 1 p p where
  admitted := admitsPoly_of_along admitted
  bound t member := by
    have nonneg := count_of_along (admitted.all t member)
    omega
  value := by simp

theorem Divided.scale (divided : Divided x k u p q) (c : Rat) :
    Divided x k (algebraMap ℚ _ c * u) p (q.scale c) where
  admitted := divided.admitted.scale c
  bound := Poly.All.scale (P := fun m => -(k : Int) ≤ m.count (.symbol x)) divided.bound c
  value := by
    rw [Valuation.poly_scale, mul_assoc, divided.value, algebraMap_literal, map_mul, mul_assoc]

/-- A shift by a monomial with the exponent `-j` of the variable. -/
theorem Divided.shift (divided : Divided x k u p q) {j : Nat} {c : Coefficients x} {q' : Poly}
    (admitted : valuation.Admits m) (count : m.count (.symbol x) = -j)
    (value : (along x).monomial m = RatFunc.C c * RatFunc.X ^ m.count (.symbol x))
    (ran : q.shift m = .ok q') : Divided x (k + j) (c * u) p q' := by
  obtain ⟨shifted, product⟩ :=
    (Valuation.shift_ensures dividing.lawful divided.admitted admitted).of_ok ran
  refine ⟨shifted, ?_, ?_⟩
  · -- No reduction takes place, so that the terms are products of terms.
    refine Poly.shift_all (P := fun m => -((k + j : Nat) : Int) ≤ m.count (.symbol x))
      (fun t member l combined => ?_) ran
    have product := (Valuation.combine_ensures (divided.admitted.all t member) admitted).of_ok combined
    refine ⟨irreducible_of_admits product.1, ?_⟩
    have least := divided.bound t member
    rw [Valuation.count_combine (divided.admitted.all t member) admitted combined, count]
    push_cast
    omega
  · have whole := congrArg (inVariable x) product
    rw [map_mul, inVariable_poly, inVariable_poly, inVariable_monomial, value, count] at whole
    have cancel : (RatFunc.X : RatFunc (Coefficients x)) ^ (-(j : Int)) * RatFunc.X ^ j = 1 := by
      rw [zpow_neg, zpow_natCast, inv_mul_cancel₀ (pow_ne_zero _ RatFunc.X_ne_zero)]
    calc (along x).poly q' * RatFunc.X ^ (k + j)
        = RatFunc.C c * ((along x).poly q * RatFunc.X ^ k) *
            (RatFunc.X ^ (-(j : Int)) * RatFunc.X ^ j) := by rw [whole, pow_add]; ring
      _ = RatFunc.C (c * u) * (along x).poly p := by
          rw [cancel, mul_one, divided.value, map_mul, mul_assoc]

theorem cancelMonomial_divided {sides : Poly × Poly} (top : (along x).AdmitsPoly num)
    (bottom : (along x).AdmitsPoly den) (ran : Fraction.cancelMonomial num den = .ok sides) :
    ∃ k u, u ≠ 0 ∧ Divided x k u num sides.1 ∧ Divided x k u den sides.2 := by
  unfold Fraction.cancelMonomial at ran
  dsimp only at ran
  split at ran
  · cases ran
    exact ⟨0, 1, one_ne_zero, .refl top, .refl bottom⟩
  · obtain ⟨n, inverted, ran⟩ := bind_eq_ok ran
    obtain ⟨invertible, rfl⟩ := Monomial.inverse_eq_ok inverted
    obtain ⟨num', first, ran⟩ := bind_eq_ok ran
    obtain ⟨den', second, ran⟩ := bind_eq_ok ran
    cases ran
    have admitted := admitsPoly_of_along bottom
    have increasing := admitted.all.mono fun m holds => holds.increasing
    have common := admitted.commonMonomial
    have inverse : valuation.Admits den.commonMonomial.reciprocal :=
      common.reciprocal invertible fun f member => (common.factor f member).known
    -- The variable divides the denominator as often as it stands in the common monomial.
    have nonneg : 0 ≤ den.commonMonomial.count (.symbol x) := by
      by_contra negative
      have present : den.commonMonomial.count (.symbol x) ≠ 0 := by omega
      obtain ⟨-, -, t, member, count⟩ :=
        Poly.mem_commonMonomial increasing (Monomial.mem_of_exponentIn present)
      have least := count_of_along (bottom.all t member)
      rw [count, ← Monomial.count_eq] at least
      exact negative least
    obtain ⟨j, exponent⟩ := Int.eq_ofNat_of_zero_le nonneg
    have count : den.commonMonomial.reciprocal.count (.symbol x) = -j := by
      rw [Monomial.count_reciprocal, exponent]
    obtain ⟨c, nonzero, value⟩ := monomial_along x inverse
    exact ⟨0 + j, c * 1, mul_ne_zero nonzero one_ne_zero,
      (Divided.refl top).shift inverse count value first,
      (Divided.refl bottom).shift inverse count value second⟩

/-- A denominator of one term with positive exponents is divided out of both
sides. -/
theorem Divided.single {num' : Poly} {c : Rat} (nonzero : u ≠ 0) (above : Divided x k u num num')
    (below : Divided x k u den ⟨[(m, c)]⟩) (positive : ∀ f ∈ m.factors, 0 < f.2)
    (invertible : m.isInvertible = true) (shifted : num'.shift m.reciprocal = .ok p) :
    ∃ k u, u ≠ 0 ∧ Divided x k u num (p.scale c⁻¹) ∧ Divided x k u den .one := by
  have admitted : valuation.Admits m := below.admitted.all (m, c) List.mem_cons_self
  have coefficient : c ≠ 0 := below.admitted.ordered.nonzero (m, c) List.mem_cons_self
  have inverse : valuation.Admits m.reciprocal :=
    admitted.reciprocal invertible fun f member => (admitted.factor f member).known
  -- The exponent of the variable in the term.
  have exponent : m.count (.symbol x) = 0 ∨
      (.symbol x, m.count (.symbol x)) ∈ m.factors := by
    by_cases zero : m.count (.symbol x) = 0
    · exact .inl zero
    · exact .inr (Monomial.mem_of_exponentIn zero)
  obtain ⟨j, count⟩ : ∃ j : Nat, m.reciprocal.count (.symbol x) = -j := by
    rw [Monomial.count_reciprocal]
    rcases exponent with zero | member
    · exact ⟨0, by rw [zero]; rfl⟩
    · obtain ⟨j, nonneg⟩ := Int.eq_ofNat_of_zero_le (positive _ member).le
      exact ⟨j, congrArg Neg.neg nonneg⟩
  obtain ⟨d, factor, value⟩ := monomial_along x inverse
  have divided : (Poly.mk [(m, c)]).shift m.reciprocal = .ok (.constant c) := by
    rw [← Poly.term_of_ne_zero coefficient]
    exact Poly.shift_term (Monomial.combine_reciprocal m) Monomial.irreducible_one c
  have unit : (Poly.constant c).scale c⁻¹ = .one := by
    rw [Poly.constant, Poly.scale_term, mul_inv_cancel₀ coefficient]
    rfl
  refine ⟨k + j, algebraMap ℚ _ c⁻¹ * (d * u), ?_,
    (above.shift inverse count value shifted).scale c⁻¹, ?_⟩
  · exact mul_ne_zero ((map_ne_zero _).mpr (inv_ne_zero coefficient)) (mul_ne_zero factor nonzero)
  · have whole := (below.shift inverse count value divided).scale c⁻¹
    rwa [unit] at whole

theorem Divided.ne_zero (divided : Divided x k u p q) (nonzero : u ≠ 0)
    (regular : (along x).poly p ≠ 0) : (along x).poly q ≠ 0 := by
  intro zero
  have value := divided.value
  rw [zero, zero_mul, eq_comm, mul_eq_zero] at value
  rcases value with vanishes | vanishes
  · exact nonzero (RatFunc.C_injective (vanishes.trans (map_zero _).symm))
  · exact regular vanishes

/-- The canonical form of a quotient is a constant, or its sides are those of the
quotient times a coefficient, divided by a power of the variable. -/
theorem make_divided (top : (along x).AdmitsPoly num) (bottom : (along x).AdmitsPoly den)
    (regular : (along x).poly den ≠ 0) (ran : Fraction.make num den = .ok r) :
    (∃ c, r = .constant c) ∨
      ∃ k u, u ≠ 0 ∧ Divided x k u num r.num ∧ Divided x k u den r.den := by
  have plain := firstSurd_eq_none (admitsPoly_of_along bottom)
  rcases Fraction.make_cases ran with ⟨-, rfl⟩ | ⟨-, q, q', first, second, last⟩
  · exact .inl ⟨0, rfl⟩
  have same : Fraction.rationalise Fraction.maxRounds num den = .ok (num, den) := by
    rw [Fraction.maxRounds, Fraction.rationalise, plain]
  rw [same] at first
  cases first
  obtain ⟨k, u, nonzero, above, below⟩ := cancelMonomial_divided top bottom second
  have proper := below.ne_zero nonzero regular
  obtain ⟨num', den'⟩ := q'
  rcases last with ⟨m, c, p, single, invertible, shifted, rfl⟩ | ⟨-, rfl⟩
  · have regular' : valuation.poly den ≠ 0 := by
      intro zero
      exact regular (by rw [← inVariable_poly, zero, map_zero])
    obtain ⟨-, -, -, -, positive⟩ := (Valuation.cancelMonomial_ensures dividing
      (admitsPoly_of_along top) (admitsPoly_of_along bottom) regular' plain).of_ok second
    have terms := positive (m, c) single
    obtain rfl := Valuation.singleTerm_eq single
    exact .inr (above.single nonzero below terms invertible shifted)
  · obtain ⟨m, c, ts, rfl⟩ := Valuation.leading_of_value proper
    have coefficient : c ≠ 0 := below.admitted.ordered.nonzero (m, c) List.mem_cons_self
    rcases Valuation.monic_cases num' m coefficient ts with ⟨ratio, constant, -⟩ | ⟨sides, -⟩
    · exact .inl ⟨ratio, constant⟩
    · rw [sides]
      exact .inr ⟨k, algebraMap ℚ _ c⁻¹ * u,
        mul_ne_zero ((map_ne_zero _).mpr (inv_ne_zero coefficient)) nonzero,
        above.scale c⁻¹, below.scale c⁻¹⟩

/-! ## Values, slopes and orders -/

/-- The order to which the numerator of a rational function of the variable
vanishes at a point. -/
noncomputable def orderAt (x : String) (a : Rat) (f : RationalFunction) : Nat :=
  (inVariable x f).num.rootMultiplicity (algebraMap ℚ (Coefficients x) a)

variable {s : Fraction} {g : RationalFunction} {a : Rat} {guards : Guards}

theorem div_represents (left : Represents r f) (right : Represents s g) (regular : g ≠ 0) :
    Ensures (r.div s) (fun t => Represents t (f / g)) IsRefusal := by
  have nonzero : ¬ s.isZero = true := fun empty => regular (right.isZero_iff.mp empty)
  have top : valuation.poly s.num ≠ 0 := by
    rw [right.denotes.value]
    exact mul_ne_zero regular right.denotes.regular
  rw [Fraction.div_eq_make, if_neg nonzero]
  refine .bind (Valuation.productSides_ensures dividing.lawful left.denotes
    right.denotes.reciprocal) ?_
  rintro q ⟨sides, below⟩
  rw [div_eq_mul_inv, ← sides.value (below top)]
  exact make_represents sides.top sides.bottom (below top)

/-- A symbol that no factor mentions has the exponent zero. -/
theorem count_of_unmentioned (unmentioned : m.mentions x = false) : m.count (.symbol x) = 0 := by
  obtain ⟨fs, e⟩ := m
  rw [Monomial.mentions, Bool.or_eq_false_iff] at unmentioned
  rw [Monomial.count_eq]
  obtain ⟨factors, -⟩ := unmentioned
  dsimp only at factors ⊢
  induction fs with
  | nil => rfl
  | cons f fs ih =>
    obtain ⟨b, n⟩ := f
    rw [factorsMention, Bool.or_eq_false_iff] at factors
    have other : Atom.symbol x ≠ b := by
      rintro rfl
      simp [Atom.mentions] at factors
    rw [Monomial.exponentIn_cons, if_neg other, ih factors.2]

theorem terms_unmentioned {ts : List (Monomial × Rat)} (each : ∀ t ∈ ts, valuation.Admits t.1)
    (unmentioned : termsMention x ts = false) : ∃ c, (along x).terms ts = RatFunc.C c := by
  induction ts with
  | nil => exact ⟨0, by simp⟩
  | cons t ts ih =>
    obtain ⟨m, d⟩ := t
    obtain ⟨head, tail⟩ := List.forall_mem_cons.mp each
    rw [termsMention, Bool.or_eq_false_iff] at unmentioned
    obtain ⟨c, rest⟩ := ih tail unmentioned.2
    obtain ⟨u, -, value⟩ := monomial_along x head
    refine ⟨algebraMap ℚ _ d * u + c, ?_⟩
    rw [Valuation.terms_cons, value, rest, count_of_unmentioned unmentioned.1, zpow_zero, mul_one,
      algebraMap_literal, map_add, map_mul]

/-- What does not mention the variable is a coefficient. -/
theorem inVariable_unmentioned (denotes : valuation.Denotes r f) (unmentioned : r.mentions x = false) :
    ∃ c, inVariable x f = RatFunc.C c := by
  rw [denotes.eq_div, map_div₀, inVariable_poly, inVariable_poly]
  have top := denotes.num.all
  have bottom := denotes.den.all
  obtain ⟨⟨ts⟩, ⟨us⟩⟩ := r
  rw [Fraction.mentions, Poly.mentions, Poly.mentions, Bool.or_eq_false_iff] at unmentioned
  obtain ⟨c, above⟩ := terms_unmentioned top unmentioned.1
  obtain ⟨d, below⟩ := terms_unmentioned bottom unmentioned.2
  refine ⟨c / d, ?_⟩
  rw [Valuation.poly_eq, Valuation.poly_eq, above, below, map_div₀]

/-- The value of a cleared side at the point. -/
theorem evaluate_ensures {P : (Coefficients x)[X]} {max : Nat}
    (follows : Follows max x a (Fraction.ofPoly p).toExpr P) :
    Ensures (Limit.evaluate p x (.number a) max) (fun r => ∃ f, Represents r f ∧
      inVariable x f = RatFunc.C (P.eval (algebraMap ℚ _ a))) IsRefusal :=
  Ensures.mono follows.point fun _ whole => whole.represents

/-- A rational function of the variable with a constant value is zero exactly if
the constant is. -/
theorem eq_zero_of_constant {c : Coefficients x} (value : inVariable x f = RatFunc.C c) :
    f = 0 ↔ c = 0 := by
  constructor
  · rintro rfl
    rw [map_zero] at value
    exact RatFunc.C_injective (value.symm.trans (map_zero _).symm)
  · rintro rfl
    exact inVariable_injective x (by rw [value, map_zero, map_zero])

/-! ## Rounds -/

/-- The limit was found: there is no pole, and the result is the value. -/
def Reached (x : String) (a : Rat) (f : RationalFunction) (s : Fraction) : Prop :=
  ¬ HasPole (inVariable x f) (algebraMap ℚ _ a) ∧ ∃ g, Represents s g ∧
    inVariable x g = RatFunc.C (valueAt (inVariable x f) (algebraMap ℚ _ a))

/-- What a failure of the limit tells: divergence a pole, and indeterminacy that
both cleared sides vanish to an order above the number of rounds. -/
structure Stopped (x : String) (a : Rat) (rounds : Nat) (r : Fraction) (f : RationalFunction)
    (e : Failure) : Prop where
  divergent : ∀ what, e = .divergent what → HasPole (inVariable x f) (algebraMap ℚ _ a)
  indeterminate : ∀ what, e = .indeterminate what → r.mentions x = true ∧ ∃ num den,
    Limit.cleared r x = .ok (num, den) ∧
      rounds < orderAt x a (valuation.poly num) ∧ rounds < orderAt x a (valuation.poly den)

theorem Stopped.of_refusal {rounds : Nat} {e : Failure} (large : e.IsRefusal) :
    Stopped x a rounds r f e := by
  obtain ⟨what, rfl⟩ | ⟨operation, rfl⟩ := large
  · exact ⟨nofun, nofun⟩
  · exact ⟨nofun, nofun⟩

/-- The two polynomials that the sides of a fraction are after clearing. -/
structure Cleared (max : Nat) (x : String) (a : Rat) (f : RationalFunction) (num den : Poly)
    (P Q : (Coefficients x)[X]) : Prop where
  top : Follows max x a (Fraction.ofPoly num).toExpr P
  bottom : Follows max x a (Fraction.ofPoly den).toExpr Q
  above : (along x).poly num = algebraMap _ _ P
  below : (along x).poly den = algebraMap _ _ Q
  regular : Q ≠ 0
  value : inVariable x f = quotient P Q

theorem Cleared.orders {max : Nat} {P Q : (Coefficients x)[X]} (cleared : Cleared max x a f num den P Q) :
    orderAt x a (valuation.poly num) = P.rootMultiplicity (algebraMap ℚ _ a) ∧
      orderAt x a (valuation.poly den) = Q.rootMultiplicity (algebraMap ℚ _ a) := by
  constructor
  · rw [orderAt, inVariable_poly, cleared.above, RatFunc.num_algebraMap]
  · rw [orderAt, inVariable_poly, cleared.below, RatFunc.num_algebraMap]

theorem cleared_polynomials (max : Nat) (a : Rat) (denotes : valuation.Denotes r f)
    (ran : Limit.cleared r x = .ok (num, den)) : ∃ P Q, Cleared max x a f num den P Q := by
  obtain ⟨l, -, top, bottom, above, below⟩ := cleared_spec denotes.num denotes.den ran
  obtain ⟨P, follows, value⟩ := follows_toExpr top max a
  obtain ⟨Q, follows', value'⟩ := follows_toExpr bottom max a
  have power : (RatFunc.X : RatFunc (Coefficients x)) ^ l ≠ 0 := pow_ne_zero _ RatFunc.X_ne_zero
  have regular : (along x).poly r.den ≠ 0 := by
    rw [← inVariable_poly]
    exact (map_ne_zero _).mpr denotes.regular
  refine ⟨P, Q, follows, follows', value, value', ?_, ?_⟩
  · rintro rfl
    rw [map_zero, below] at value'
    exact mul_ne_zero regular power value'
  · rw [denotes.eq_div, map_div₀, inVariable_poly, inVariable_poly, quotient, ← value, ← value', above,
      below, mul_div_mul_right _ _ power]

theorem cleared_ensures (denotes : valuation.Denotes r f) :
    Ensures (Limit.cleared r x) (fun _ => True) IsRefusal := by
  refine .bind ((machineInt_ensures "negate" _).mono_error fun _ => .inr) ?_
  rintro n ⟨fits, rfl⟩
  have lift := admits_power x fits
  refine .bind (Valuation.shift_ensures dividing.lawful denotes.num lift).isRefusal fun num _ => ?_
  exact .bind (Valuation.shift_ensures dividing.lawful denotes.den lift).isRefusal fun den _ => trivial

theorem mentions_constant (x : String) (c : Rat) : (Fraction.constant c).mentions x = false := by
  unfold Fraction.constant Fraction.ofPoly Poly.constant Poly.term
  split
  · simp [Fraction.mentions, Poly.mentions, termsMention, Poly.one, Poly.constant, Poly.term,
      Monomial.mentions, factorsMention, Poly.zero]
  · simp [Fraction.mentions, Poly.mentions, termsMention, Poly.one, Poly.constant, Poly.term,
      Monomial.mentions, factorsMention, Poly.zero]

/-- What mentions a variable is not zero. -/
theorem ne_zero_of_mentions (represents : Represents r f) (mentioned : r.mentions x = true) :
    f ≠ 0 := by
  intro zero
  have empty : r.num.isZero = true := represents.isZero_iff.mpr zero
  have one := represents.whole empty
  obtain ⟨⟨ts⟩, den⟩ := r
  obtain rfl : ts = [] := List.isEmpty_iff.mp empty
  obtain rfl : den = .one := one
  have free := mentions_constant x 0
  exact absurd mentioned (by rw [Bool.not_eq_true]; exact free)

theorem derivative_ne_zero {P : (Coefficients x)[X]} {c : Coefficients x} (nonzero : P ≠ 0)
    (root : P.IsRoot c) : Polynomial.derivative P ≠ 0 := by
  obtain ⟨n, P₁, P', -, slope, -, regular, -⟩ := derivative_split nonzero root
  rw [slope]
  refine mul_ne_zero (pow_ne_zero n (Polynomial.X_sub_C_ne_zero c)) fun zero => regular ?_
  rw [zero, Polynomial.eval_zero]

/-- What divides the derivative vanishes to a lower order at a root. -/
theorem rootMultiplicity_lt {P P' : (Coefficients x)[X]} {c : Coefficients x} (nonzero : P ≠ 0)
    (root : P.IsRoot c) (divides : P' ∣ Polynomial.derivative P) :
    P'.rootMultiplicity c < P.rootMultiplicity c := by
  have low := Polynomial.rootMultiplicity_le_rootMultiplicity_of_dvd
    (derivative_ne_zero nonzero root) divides c
  rw [Polynomial.derivative_rootMultiplicity_of_root root] at low
  have positive := (Polynomial.rootMultiplicity_pos nonzero).mpr root
  omega

/-- The quotient of two polynomials over one has them as its sides. -/
theorem div_whole {F G : RatFunc (Coefficients x)} (top : Whole x r F) (bottom : Whole x s G)
    {t : Fraction} (ran : r.div s = .ok t) : Fraction.make r.num s.num = .ok t := by
  rw [Fraction.div_eq_make] at ran
  split at ran
  · cases ran
  · obtain ⟨q, sides, made⟩ := bind_eq_ok ran
    unfold Fraction.productSides at sides
    rw [top.den, bottom.den] at sides
    obtain ⟨num, first, sides⟩ := bind_eq_ok sides
    obtain ⟨den, second, sides⟩ := bind_eq_ok sides
    cases sides
    rwa [(Poly.mul_one_ensures top.reduced).of_ok first,
      (Poly.one_mul_ensures bottom.reduced).of_ok second] at made

/-- A side after a round divides the derivative of what it was before. -/
theorem dvd_of_divided {k l : Nat} {u : Coefficients x} {p q side : Poly} {P D : (Coefficients x)[X]}
    (nonzero : u ≠ 0) (divided : Divided x k u p q) (le : l ≤ k)
    (slope : (along x).poly p = algebraMap _ _ D)
    (lifted : (along x).poly side = (along x).poly q * RatFunc.X ^ l)
    (value : (along x).poly side = algebraMap _ _ P) : P ∣ D := by
  have product : P * Polynomial.X ^ (k - l) = Polynomial.C u * D := by
    refine RatFunc.algebraMap_injective (Coefficients x) ?_
    rw [map_mul, map_mul, map_pow, RatFunc.algebraMap_X, RatFunc.algebraMap_C, ← value, ← slope,
      lifted, mul_assoc, ← pow_add, Nat.add_sub_cancel' le, divided.value]
  have unit : Polynomial.C u⁻¹ * Polynomial.C u = 1 := by
    rw [← Polynomial.C_mul, inv_mul_cancel₀ nonzero, Polynomial.C_1]
  refine ⟨Polynomial.C u⁻¹ * Polynomial.X ^ (k - l), ?_⟩
  calc D = Polynomial.C u⁻¹ * Polynomial.C u * D := by rw [unit, one_mul]
    _ = Polynomial.C u⁻¹ * (P * Polynomial.X ^ (k - l)) := by rw [mul_assoc, product]
    _ = P * (Polynomial.C u⁻¹ * Polynomial.X ^ (k - l)) := by ring

/-- A round lowers the orders of both sides. -/
theorem round_orders {max : Nat} {P Q P' Q' : (Coefficients x)[X]} {num' den' : Poly}
    {top bottom t : Fraction} {g : RationalFunction}
    (roots : P.IsRoot (algebraMap ℚ _ a) ∧ Q.IsRoot (algebraMap ℚ _ a)) (proper : P ≠ 0)
    (regular : Q ≠ 0) (above : Whole x top (algebraMap _ _ (Polynomial.derivative P)))
    (below : Whole x bottom (algebraMap _ _ (Polynomial.derivative Q)))
    (divided : top.div bottom = .ok t) (mentioned : t.mentions x = true)
    (represents : Represents t g) (ran : Limit.cleared t x = .ok (num', den'))
    (next : Cleared max x a g num' den' P' Q') :
    P'.rootMultiplicity (algebraMap ℚ _ a) < P.rootMultiplicity (algebraMap ℚ _ a) ∧
      Q'.rootMultiplicity (algebraMap ℚ _ a) < Q.rootMultiplicity (algebraMap ℚ _ a) := by
  have nonzero : (along x).poly bottom.num ≠ 0 := by
    rw [below.value]
    exact algebraMap_ne_zero (derivative_ne_zero regular roots.2)
  obtain ⟨c, rfl⟩ | ⟨k, u, unit, first, second⟩ :=
    make_divided above.num below.num nonzero (div_whole above below divided)
  · rw [mentions_constant] at mentioned
    cases mentioned
  obtain ⟨l, low, -, -, lifted, lifted'⟩ :=
    cleared_spec represents.denotes.num represents.denotes.den ran
  have le : l ≤ k := by
    obtain ⟨-, -, attained⟩ := Limit.lowestPower_spec t x
    rcases attained with zero | ⟨term, member, count⟩
    · omega
    · have bound := List.forall_mem_append.mpr ⟨first.bound, second.bound⟩ term member
      omega
  exact ⟨rootMultiplicity_lt proper roots.1
      (dvd_of_divided unit first le above.value lifted next.above),
    rootMultiplicity_lt regular roots.2
      (dvd_of_divided unit second le below.value lifted' next.below)⟩

/-- The beginning of a round: either the variable does not occur, or the values
of both sides decide, or both sides vanish. -/
theorem round_ensures {rounds : Nat} {rest : Poly × Poly → Outcome Fraction}
    (represents : Represents r f) (shown : Fraction → String)
    (vanishing : r.mentions x = true → ∀ num den P Q, Limit.cleared r x = .ok (num, den) →
      Cleared guards.maxPower x a f num den P Q → P ≠ 0 →
      P.IsRoot (algebraMap ℚ _ a) ∧ Q.IsRoot (algebraMap ℚ _ a) →
      Ensures (rest (num, den)) (Reached x a f) (Stopped x a rounds r f)) :
    Ensures (if !r.mentions x then .ok r else (do
      let q ← Limit.cleared r x
      let top ← Limit.evaluate q.1 x (.number a) guards.maxPower
      let bottom ← Limit.evaluate q.2 x (.number a) guards.maxPower
      if !bottom.isZero then top.div bottom
      else if !top.isZero then throw (.divergent (shown top))
      else rest q)) (Reached x a f) (Stopped x a rounds r f) := by
  by_cases mentioned : r.mentions x = true
  · rw [mentioned]
    refine .bind (((cleared_ensures represents.denotes).and fun q ran => ran).mono_error
      fun e large => .of_refusal large) ?_
    rintro ⟨num, den⟩ ⟨-, ran⟩
    obtain ⟨P, Q, cleared⟩ := cleared_polynomials guards.maxPower a represents.denotes ran
    refine .bind ((evaluate_ensures cleared.top).mono_error fun e large => .of_refusal large) ?_
    rintro top ⟨y, above, value⟩
    refine .bind ((evaluate_ensures cleared.bottom).mono_error fun e large => .of_refusal large) ?_
    rintro bottom ⟨z, below, value'⟩
    by_cases regular : Q.eval (algebraMap ℚ _ a) = 0
    · have zero : bottom.isZero = true := below.isZero_iff.mpr ((eq_zero_of_constant value').mpr regular)
      rw [zero]
      by_cases vanishes : P.eval (algebraMap ℚ _ a) = 0
      · have zero' : top.isZero = true := above.isZero_iff.mpr ((eq_zero_of_constant value).mpr vanishes)
        rw [zero']
        refine vanishing mentioned num den P Q ran cleared ?_ ⟨vanishes, regular⟩
        rintro rfl
        refine ne_zero_of_mentions represents mentioned (inVariable_injective x ?_)
        rw [cleared.value, quotient, map_zero, zero_div, map_zero]
      · have proper : top.isZero = false := by
          rw [← Bool.not_eq_true]
          exact fun empty => vanishes ((eq_zero_of_constant value).mp (above.isZero_iff.mp empty))
        rw [proper]
        refine ⟨fun _ _ => ?_, fun _ same => by cases same⟩
        rw [cleared.value]
        exact quotient_pole cleared.regular vanishes regular
    · have proper : bottom.isZero = false := by
        rw [← Bool.not_eq_true]
        exact fun empty => regular ((eq_zero_of_constant value').mp (below.isZero_iff.mp empty))
      have nonzero : z ≠ 0 := fun zero => regular ((eq_zero_of_constant value').mp zero)
      rw [proper]
      refine ((div_represents above below nonzero).mono fun s final => ?_).mono_error
        fun e large => .of_refusal large
      obtain ⟨clear, quotient⟩ := quotient_regular (N := P) regular
      rw [← cleared.value] at clear quotient
      exact ⟨clear, y / z, final, by rw [map_div₀, value, value', quotient, map_div₀]⟩
  · rw [Bool.not_eq_true] at mentioned
    rw [mentioned]
    obtain ⟨c, constant⟩ := inVariable_unmentioned represents.denotes mentioned
    obtain ⟨clear, value⟩ := quotient_C c (algebraMap ℚ (Coefficients x) a)
    rw [← constant] at clear value
    exact ⟨clear, f, represents, by rw [value, constant]⟩

/-- Rounds of L'Hôpital's rule find the value of the reduced fraction, and what
they fail with tells why. -/
theorem finite_ensures (guards : Guards) (x : String) (a : Rat) (rounds : Nat)
    (represents : Represents r f) :
    Ensures (Limit.finite guards x (.number a) rounds r) (Reached x a f)
      (Stopped x a rounds r f) := by
  induction rounds generalizing r f with
  | zero =>
    rw [Limit.finite_eq]
    refine round_ensures represents _ fun mentioned num den P Q ran cleared proper roots => ?_
    refine ⟨nofun, fun _ _ => ⟨mentioned, num, den, ran, ?_⟩⟩
    rw [cleared.orders.1, cleared.orders.2]
    exact ⟨(Polynomial.rootMultiplicity_pos proper).mpr roots.1,
      (Polynomial.rootMultiplicity_pos cleared.regular).mpr roots.2⟩
  | succ rounds ih =>
    rw [Limit.finite_eq]
    refine round_ensures represents _ fun mentioned num den P Q ran cleared proper roots => ?_
    dsimp only
    refine .bind (Ensures.mono_error cleared.top.slope fun e large => .of_refusal large)
      fun top above => ?_
    refine .bind (Ensures.mono_error cleared.bottom.slope fun e large => .of_refusal large)
      fun bottom below => ?_
    obtain ⟨y, first, value⟩ := above.represents
    obtain ⟨z, second, value'⟩ := below.represents
    have nonzero : z ≠ 0 := by
      rintro rfl
      rw [map_zero] at value'
      exact algebraMap_ne_zero (derivative_ne_zero cleared.regular roots.2) value'.symm
    refine .bind (((div_represents first second nonzero).and fun t divided => divided).mono_error
      fun e large => .of_refusal large) ?_
    rintro t ⟨next, divided⟩
    -- The quotient of the derivatives has the same poles and values.
    have slopes : inVariable x (y / z) =
        quotient (Polynomial.derivative P) (Polynomial.derivative Q) := by
      rw [map_div₀, value, value', quotient]
    obtain ⟨poles, values⟩ := lhopital roots.1 roots.2 cleared.regular
    rw [← slopes, ← cleared.value] at poles values
    refine ((ih next).mono ?_).mono_error ?_
    · rintro s ⟨clear, g, final, limit⟩
      rw [← poles] at clear
      exact ⟨clear, g, final, by rw [limit, values clear]⟩
    · rintro e ⟨divergent, indeterminate⟩
      refine ⟨fun what same => poles.mpr (divergent what same), fun what same => ?_⟩
      obtain ⟨mentioned', num', den', ran', order, order'⟩ := indeterminate what same
      obtain ⟨P', Q', after⟩ := cleared_polynomials guards.maxPower a next.denotes ran'
      obtain ⟨lower, lower'⟩ := round_orders roots proper cleared.regular above below divided
        mentioned' next ran' after
      rw [after.orders.1] at order
      rw [after.orders.2] at order'
      refine ⟨mentioned, num, den, ran, ?_⟩
      rw [cleared.orders.1, cleared.orders.2]
      omega

/-- What stopped the limit of an expression. -/
structure LimitStopped (guards : Guards) (e : Expr) (x : String) (a : Rat) (failure : Failure) :
    Prop where
  divergent : ∀ what, failure = .divergent what →
    ∃ f, e.denote = some f ∧ HasPole (inVariable x f) (algebraMap ℚ _ a)
  indeterminate : ∀ what, failure = .indeterminate what →
    ∃ r num den top bottom, Fraction.ofExpr guards.maxPower e = .ok r ∧
      Limit.cleared r x = .ok (num, den) ∧
      num.toExpr.denote = some top ∧ den.toExpr.denote = some bottom ∧
      guards.rounds < orderAt x a top ∧ guards.rounds < orderAt x a bottom

theorem LimitStopped.of_refusal {guards : Guards} {e : Expr} {failure : Failure}
    (refused : failure.IsRefusal) : LimitStopped guards e x a failure := by
  obtain ⟨what, rfl⟩ | ⟨operation, rfl⟩ := refused
  · exact ⟨nofun, nofun⟩
  · exact ⟨nofun, nofun⟩

theorem limit_ensures (guards : Guards) (x : String) (a : Rat) (represents : Represents r f) :
    Ensures (r.limit x (.finite (.number a)) guards) (Reached x a f)
      (Stopped x a guards.rounds r f) := by
  unfold Fraction.limit
  split
  · rename_i unmentioned
    have found := finite_ensures guards x a guards.rounds represents
    rw [Limit.finite_eq, if_pos unmentioned] at found
    exact found
  · exact finite_ensures guards x a guards.rounds represents

/-- The limit of a rational expression at a rational point. -/
theorem exact_limit_ensures (guards : Guards) {e : Expr} (rational : e.IsRational) (x : String)
    (a : Rat) :
    Ensures (do
        let r ← Fraction.ofExpr guards.maxPower e
        return (← r.limit x (.finite (.number a)) guards).toExpr)
      (fun l => ∃ f g, e.denote = some f ∧ l.denote = some g ∧
        ¬ HasPole (inVariable x f) (algebraMap ℚ _ a) ∧
        inVariable x g = RatFunc.C (valueAt (inVariable x f) (algebraMap ℚ _ a)))
      (LimitStopped guards e x a) := by
  have normal := (normalises guards.maxPower rational).and fun r ran => ran
  refine .bind (normal.mono_error ?_) ?_
  · rintro failure (refused | ⟨⟨place, rfl⟩, -⟩)
    · exact .of_refusal refused
    · exact ⟨nofun, nofun⟩
  rintro r ⟨⟨f, denotes, represents⟩, ran⟩
  refine .bind ((limit_ensures guards x a represents).mono_error ?_) ?_
  · rintro failure ⟨divergent, indeterminate⟩
    refine ⟨fun what same => ⟨f, denotes, divergent what same⟩, fun what same => ?_⟩
    obtain ⟨-, num, den, cleared, above, below⟩ := indeterminate what same
    obtain ⟨-, -, top, bottom, -, -⟩ :=
      cleared_spec represents.denotes.num represents.denotes.den cleared
    exact ⟨r, num, den, _, _, ran, cleared, denote_poly_toExpr (admitsPoly_of_along top),
      denote_poly_toExpr (admitsPoly_of_along bottom), above, below⟩
  · rintro s ⟨clear, g, final, value⟩
    exact ⟨f, g, denotes, denote_toExpr final.denotes, clear, value⟩

end RationalFunction

/-- Limits of rational functions at rational points are exact: a result denotes
the value of the reduced fraction, which has no pole there; divergence means a
pole; and indeterminacy that the numerator and the denominator of the canonical
form, cleared of negative powers of the variable, both vanish to an order above
the number of rounds. -/
theorem finite_limit_exact (guards : Guards) {e : Expr} (rational : e.IsRational) (x : String)
    (a : Rat) :
    (∀ l, (Oracle.exact guards).limit e x (.finite (.number a)) = .ok l →
      ∃ f g, e.denote = some f ∧ l.denote = some g ∧
        ¬ HasPole (inVariable x f) (algebraMap ℚ _ a) ∧
        inVariable x g = RatFunc.C (valueAt (inVariable x f) (algebraMap ℚ _ a))) ∧
    (∀ what,
      (Oracle.exact guards).limit e x (.finite (.number a)) = .error (.divergent what) →
      ∃ f, e.denote = some f ∧ HasPole (inVariable x f) (algebraMap ℚ _ a)) ∧
    (∀ what,
      (Oracle.exact guards).limit e x (.finite (.number a)) = .error (.indeterminate what) →
      ∃ r num den top bottom, Fraction.ofExpr guards.maxPower e = .ok r ∧
        Limit.cleared r x = .ok (num, den) ∧
        num.toExpr.denote = some top ∧ den.toExpr.denote = some bottom ∧
        guards.rounds < orderAt x a top ∧ guards.rounds < orderAt x a bottom) := by
  have ensured := exact_limit_ensures guards rational x a
  refine ⟨fun l found => ensured.of_ok found, fun what failed => ?_,
    fun what failed => ?_⟩
  · exact (ensured.of_error failed).divergent what rfl
  · exact (ensured.of_error failed).indeterminate what rfl

/-- `(x ^ 2 - 1) / (x - 1)`. -/
def removableSingularity : Expr :=
  .product [.sum [.power (.symbol "x") (.int 2), .number (-1)],
    .power (.sum [.symbol "x", .number (-1)]) (.int (-1))]

theorem finite_limit_exact_removableSingularity :
    ∃ f g, removableSingularity.denote = some f ∧ (Expr.number 2).denote = some g ∧
      ¬ HasPole (inVariable "x" f) (algebraMap ℚ _ 1) ∧
      inVariable "x" g = RatFunc.C (valueAt (inVariable "x" f) (algebraMap ℚ _ 1)) := by
  have rational : removableSingularity.IsRational := by
    refine .product ?_
    simp only [List.forall_mem_cons, List.not_mem_nil, false_implies, implies_true, and_true]
    refine ⟨.sum ?_, .power (-1) (.sum ?_)⟩
    · simpa using ⟨.power 2 (.symbol "x"), .number (-1)⟩
    · simpa using ⟨.symbol "x", .number (-1)⟩
  have found : (Oracle.exact {}).limit removableSingularity "x" (.finite (.number 1)) =
      .ok (.number 2) := by decide +kernel
  exact (finite_limit_exact {} rational "x" 1).1 _ found

end Discharge
