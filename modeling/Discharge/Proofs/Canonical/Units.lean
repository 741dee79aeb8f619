import Discharge.Proofs.Canonical.Exact
import Discharge.Proofs.Normal.Every
import Discharge.Proofs.Normal.Irreducible

/-! Fractions with values in a commutative ring. Where the atoms of denominators
may be divided by, and the denominators that are not the empty polynomial have
units as values, sums and products of fractions have the sums and products of
their values, although there may be divisors of zero among these: a numerator is
never divided by anything else than a unit. So there may be more in a numerator
than in a denominator, as long as the two can be multiplied. -/

namespace Discharge

open Fraction (Belongs)

namespace Valuation

variable {A : Type*} [CommRing A] [Algebra ℚ A] {v : Valuation A} {C T T₁ T₂ T₃ : Poly → Prop}
  {r s : Fraction} {x y z : A} {num den p : Poly} {m : Monomial}

/-! ## Atoms that may be divided by -/

/-- The same values, with no other atoms than those that may be divided by. -/
def divisible (v : Valuation A) : Valuation A :=
  { v with known := fun a => v.known a ∧ v.invertible a }

theorem divisible_poly (p : Poly) : v.divisible.poly p = v.poly p :=
  poly_congr (v := v) (w := v.divisible) rfl rfl p

theorem divisible_monomial (m : Monomial) : v.divisible.monomial m = v.monomial m :=
  monomial_congr (v := v) (w := v.divisible) rfl rfl m

theorem Admits.of_divisible (admitted : v.divisible.Admits m) : v.Admits m := by
  refine ⟨admitted.increasing, fun f member => ?_, admitted.exponent, admitted.turning,
    admitted.inner⟩
  have factor := admitted.factor f member
  exact ⟨factor.nonzero, factor.fits, factor.known.1, factor.regular⟩

theorem AdmitsPoly.of_divisible (admitted : v.divisible.AdmitsPoly p) : v.AdmitsPoly p :=
  ⟨admitted.ordered, admitted.all.mono fun _ => .of_divisible⟩

theorem Admits.divisible_reciprocal (admitted : v.divisible.Admits m)
    (invertible : m.isInvertible = true) : v.divisible.Admits m.reciprocal :=
  admitted.reciprocal invertible fun f member => (admitted.factor f member).known.2

theorem exp_isUnit (x : A) : IsUnit (v.exp x) := by
  refine IsUnit.of_mul_eq_one (v.exp (-x)) ?_
  rw [← v.exp_add, add_neg_cancel, v.exp_zero]

theorem factors_isUnit {fs : List (Atom × Int)} (units : ∀ f ∈ fs, IsUnit (v.atom f.1)) :
    IsUnit (v.factors fs) := by
  induction fs with
  | nil => exact isUnit_one
  | cons f fs ih =>
    obtain ⟨a, n⟩ := f
    obtain ⟨head, tail⟩ := List.forall_mem_cons.mp units
    obtain ⟨u, unit⟩ := head
    rw [factors_cons, ← unit, intPower_unit]
    exact (Units.isUnit _).mul (ih tail)

theorem Admits.isUnit (admitted : v.divisible.Admits m) : IsUnit (v.monomial m) := by
  rw [monomial_eq]
  exact (factors_isUnit fun f member => v.isUnit f.1 (admitted.factor f member).known.2).mul
    (exp_isUnit _)

/-- The reciprocal of a monomial has the inverse value. -/
theorem Admits.monomial_mul_reciprocal (admitted : v.divisible.Admits m)
    (invertible : m.isInvertible = true) : v.monomial m * v.monomial m.reciprocal = 1 := by
  rw [← (combine_ensures admitted.of_divisible
    (admitted.divisible_reciprocal invertible).of_divisible).of_ok
    (Monomial.combine_reciprocal m) |>.2, monomial_one]

/-! ## Fractions -/

/-- Fractions of a class whose denominators have units as values, unless they are
the empty polynomial. -/
structure Cancelling (v : Valuation A) (C : Poly → Prop) : Prop where
  lawful : v.Lawful
  divisible : v.divisible.Lawful
  closed : Poly.Class C
  isUnit : ∀ p, v.divisible.AdmitsPoly p → C p → p.isZero = false → IsUnit (v.poly p)

/-- Numerators of this kind can be multiplied with what is admitted. If one of them
is a rational multiple of something admitted, the rational is of this kind too. -/
structure Numerators (v : Valuation A) (T : Poly → Prop) : Prop where
  linear : Poly.Linear T
  mul : ∀ {p q}, T p → v.AdmitsPoly q →
    Yields (p.mul q) (fun r => T r ∧ v.poly r = v.poly p * v.poly q)
  shift : ∀ {p m}, T p → v.Admits m →
    Yields (p.shift m) (fun r => T r ∧ v.poly r = v.poly p * v.monomial m)
  ratio : ∀ {q c}, v.AdmitsPoly q → q.isZero = false → T (q.scale c) → T (.constant c)

theorem Lawful.numerators (lawful : v.Lawful) : v.Numerators v.AdmitsPoly where
  linear := linear_admits
  mul left right := (mul_ensures lawful left right).mono_error fun _ _ => trivial
  shift left right := (shift_ensures lawful left right).mono_error fun _ _ => trivial
  ratio _ _ _ := .constant _

/-- The numerator is a multiple of the denominator. -/
structure Ratio (v : Valuation A) (T C : Poly → Prop) (num den : Poly) (x : A) : Prop where
  top : T num
  bottom : v.divisible.AdmitsPoly den
  above : C num
  below : C den
  value : v.poly num = x * v.poly den

/-- The fraction belongs to the class, has a numerator of this kind and the value `x`. -/
structure RepresentsOver (v : Valuation A) (T C : Poly → Prop) (r : Fraction) (x : A) : Prop where
  ratio : v.Ratio T C r.num r.den x
  regular : IsUnit (v.poly r.den)

/-- The fraction belongs to the class and has the value `x`. -/
abbrev Represents (v : Valuation A) (C : Poly → Prop) (r : Fraction) (x : A) : Prop :=
  v.RepresentsOver v.AdmitsPoly C r x

theorem RepresentsOver.of_poly (cls : Poly.Class C) (top : T p) (member : C p) :
    v.RepresentsOver T C (.ofPoly p) (v.poly p) where
  ratio := ⟨top, .one, member, cls.one, by simp [Fraction.ofPoly]⟩
  regular := by simp [Fraction.ofPoly]

theorem Represents.of_poly (cls : Poly.Class C) (admitted : v.AdmitsPoly p) (member : C p) :
    v.Represents C (.ofPoly p) (v.poly p) :=
  RepresentsOver.of_poly cls admitted member

theorem Represents.constant (cls : Poly.Class C) (q : Rat) :
    v.Represents C (.constant q) (algebraMap ℚ A q) := by
  rw [← v.poly_constant q]
  exact .of_poly cls (.constant q) (cls.constant q)

theorem exists_leading [Nontrivial A] (regular : IsUnit (v.poly p)) :
    ∃ m c ts, p = ⟨(m, c) :: ts⟩ := by
  obtain ⟨ts⟩ := p
  cases ts with
  | nil =>
    rw [poly_of_isZero rfl] at regular
    exact absurd regular not_isUnit_zero
  | cons t ts => exact ⟨t.1, t.2, ts, rfl⟩

namespace Ratio

variable (cancelling : v.Cancelling C) (numerators : v.Numerators T)

include cancelling numerators

/-- Removing the surds from a denominator keeps the ratio. -/
theorem rationalise (rounds : Nat) (ratio : v.Ratio T C num den x)
    (regular : IsUnit (v.poly den)) : Yields (Fraction.rationalise rounds num den)
      (fun q => v.Ratio T C q.1 q.2 x ∧ IsUnit (v.poly q.2)) := by
  induction rounds generalizing num den with
  | zero =>
    rw [Fraction.rationalise]
    split
    · exact ⟨ratio, regular⟩
    · trivial
  | succ rounds ih =>
    rw [Fraction.rationalise]
    split
    · exact ⟨ratio, regular⟩
    rename_i surd found
    have factor := conjugator_admitted ratio.bottom found
    have member := cancelling.closed.conjugator ratio.below found
    refine Yields.bind_ok fun num' first => Yields.bind_ok fun den' second => ?_
    obtain ⟨top, above⟩ := (numerators.mul ratio.top factor.of_divisible).of_ok first
    obtain ⟨bottom, below⟩ := (mul_ensures cancelling.divisible ratio.bottom factor).of_ok second
    have inside := (cancelling.closed.mul ratio.below member).of_ok second
    dsimp only
    split
    · trivial
    rename_i proper
    rw [divisible_poly, divisible_poly, divisible_poly] at below
    refine ih ⟨top, bottom, (cancelling.closed.mul ratio.above member).of_ok first, inside, ?_⟩
      (cancelling.isUnit den' bottom inside (Bool.eq_false_iff.mpr proper))
    rw [above, below, ratio.value, mul_assoc]

/-- Dividing by the common monomial keeps the ratio. -/
theorem cancelMonomial (ratio : v.Ratio T C num den x) (regular : IsUnit (v.poly den)) :
    Yields (Fraction.cancelMonomial num den)
      (fun q => v.Ratio T C q.1 q.2 x ∧ IsUnit (v.poly q.2)) := by
  unfold Fraction.cancelMonomial
  dsimp only
  split
  · exact ⟨ratio, regular⟩
  · refine Yields.bind_ok fun k inverted => ?_
    obtain ⟨invertible, rfl⟩ := Monomial.inverse_eq_ok inverted
    have inverse := ratio.bottom.commonMonomial.divisible_reciprocal invertible
    refine Yields.bind_ok fun num' first => Yields.bind_ok fun den' second => ?_
    obtain ⟨top, above⟩ := (numerators.shift ratio.top inverse.of_divisible).of_ok first
    obtain ⟨bottom, below⟩ :=
      (shift_ensures cancelling.divisible ratio.bottom inverse).of_ok second
    rw [divisible_poly, divisible_poly, divisible_monomial] at below
    refine ⟨⟨top, bottom, (cancelling.closed.common ratio.above ratio.below invertible).of_ok first,
      (cancelling.closed.common ratio.below ratio.below invertible).of_ok second, ?_⟩, ?_⟩
    · rw [above, below, ratio.value, mul_assoc]
    · rw [below]
      exact regular.mul inverse.isUnit

/-- A denominator of one term is divided out. -/
theorem divide_single {c : Rat} (ratio : v.Ratio T C num ⟨[(m, c)]⟩ x)
    (invertible : m.isInvertible = true) :
    Yields (num.shift m.reciprocal) (fun q => v.RepresentsOver T C (.ofPoly (q.scale c⁻¹)) x) := by
  have admitted : v.divisible.Admits m := ratio.bottom.all (m, c) (List.mem_singleton.mpr rfl)
  have nonzero : c ≠ 0 := ratio.bottom.ordered.nonzero (m, c) (List.mem_singleton.mpr rfl)
  have inverse := admitted.monomial_mul_reciprocal invertible
  cases shifted : num.shift m.reciprocal with
  | error e => trivial
  | ok q =>
    obtain ⟨top, above⟩ := (numerators.shift ratio.top
      (admitted.divisible_reciprocal invertible).of_divisible).of_ok shifted
    have member := (cancelling.closed.single ratio.above ratio.below invertible).of_ok shifted
    have value : v.poly (q.scale c⁻¹) = x := by
      have scalar : algebraMap ℚ A c⁻¹ * algebraMap ℚ A c = 1 := by
        rw [← map_mul, inv_mul_cancel₀ nonzero, map_one]
      have single : v.poly ⟨[(m, c)]⟩ = algebraMap ℚ A c * v.monomial m := by simp [poly_eq]
      rw [poly_scale, above, ratio.value, single]
      linear_combination x * scalar + x * algebraMap ℚ A c⁻¹ * algebraMap ℚ A c * inverse
    rw [← value]
    exact .of_poly cancelling.closed (numerators.linear.scale top _)
      (cancelling.closed.scale member _)

/-- Making the first coefficient of the denominator one keeps the ratio. -/
theorem monic [Nontrivial A] (ratio : v.Ratio T C num den x) (regular : IsUnit (v.poly den)) :
    v.RepresentsOver T C (Fraction.monic num den) x := by
  obtain ⟨top, bottom, above, below, value⟩ := ratio
  obtain ⟨m, c, ts, rfl⟩ := exists_leading regular
  have nonzero : c ≠ 0 := bottom.ordered.nonzero (m, c) List.mem_cons_self
  have unit : IsUnit (algebraMap ℚ A c⁻¹) := (inv_ne_zero nonzero).isUnit.map _
  have scaled := numerators.linear.scale top c⁻¹
  rcases monic_cases num m nonzero ts with ⟨ratio, constant, multiple⟩ | ⟨sides, -⟩
  · have equal := congrArg v.poly multiple
    rw [poly_scale, poly_scale, poly_scale, value] at equal
    have same : x = algebraMap ℚ A ratio :=
      (unit.mul regular).mul_right_cancel (by linear_combination equal)
    rw [multiple] at scaled
    have number := numerators.ratio (bottom.of_divisible.scale c⁻¹)
      (by simp [Poly.scale, nonzero, Poly.isZero]) scaled
    rw [constant, same, ← v.poly_constant ratio]
    exact .of_poly cancelling.closed number (cancelling.closed.constant ratio)
  · rw [sides]
    refine ⟨⟨scaled, bottom.scale _, cancelling.closed.scale above _,
      cancelling.closed.scale below _, ?_⟩, ?_⟩
    · rw [poly_scale, poly_scale, value, mul_left_comm]
    · rw [poly_scale]
      exact unit.mul regular

/-- The canonical form of a quotient has its value. -/
theorem make [Nontrivial A] (ratio : v.Ratio T C num den x) :
    Yields (Fraction.make num den) (v.RepresentsOver T C · x) := by
  unfold Fraction.make
  cases proper : den.isZero with
  | true => trivial
  | false =>
    have regular := cancelling.isUnit den ratio.bottom ratio.below proper
    simp only [Bool.false_eq_true, if_false]
    by_cases empty : num.isZero = true
    · have zero : x = 0 := by
        have value := ratio.value
        rw [poly_of_isZero empty] at value
        exact regular.mul_left_eq_zero.mp value.symm
      rw [if_pos empty, zero, ← v.poly_zero]
      exact RepresentsOver.of_poly cancelling.closed numerators.linear.zero cancelling.closed.zero
    simp only [empty]
    refine .bind (ratio.rationalise cancelling numerators _ regular) fun q ⟨ratio, regular⟩ => ?_
    refine .bind (ratio.cancelMonomial cancelling numerators regular) fun q' ⟨ratio, regular⟩ => ?_
    split
    · rename_i m c single
      obtain ⟨num', den'⟩ := q'
      obtain rfl := singleTerm_eq single
      refine Yields.bind_ok fun k inverted => ?_
      obtain ⟨invertible, rfl⟩ := Monomial.inverse_eq_ok inverted
      exact .bind (ratio.divide_single cancelling numerators invertible) fun q final => final
    · exact ratio.monic cancelling numerators regular

end Ratio

/-! ## Arithmetic -/

namespace RepresentsOver

variable [Nontrivial A] (cancelling : v.Cancelling C)

include cancelling

theorem add (numerators : v.Numerators T) (left : v.RepresentsOver T C r x)
    (right : v.RepresentsOver T C s y) : Yields (r.add s) (v.RepresentsOver T C · (x + y)) := by
  obtain ⟨first, -⟩ := left
  obtain ⟨second, -⟩ := right
  rw [Fraction.add_eq_make]
  refine Yields.bind_ok fun q ran => Ratio.make cancelling numerators ?_
  have sides := (cancelling.closed.sumSides ⟨first.above, first.below⟩
    ⟨second.above, second.below⟩).of_ok ran
  unfold Fraction.sumSides at ran
  split at ran
  · rename_i same
    cases ran
    refine ⟨numerators.linear.add first.top second.top, first.bottom, sides.1, sides.2, ?_⟩
    rw [poly_add, first.value, second.value, ← same, add_mul]
  · obtain ⟨a, across, ran⟩ := bind_eq_ok ran
    obtain ⟨b, across', ran⟩ := bind_eq_ok ran
    obtain ⟨c, below, ran⟩ := bind_eq_ok ran
    cases ran
    obtain ⟨top, value⟩ := (numerators.mul first.top second.bottom.of_divisible).of_ok across
    obtain ⟨top', value'⟩ := (numerators.mul second.top first.bottom.of_divisible).of_ok across'
    obtain ⟨bottom, product⟩ := (mul_ensures cancelling.divisible first.bottom
      second.bottom).of_ok below
    rw [divisible_poly, divisible_poly, divisible_poly] at product
    refine ⟨numerators.linear.add top top', bottom, sides.1, sides.2, ?_⟩
    rw [poly_add, value, value', product, first.value, second.value]
    ring

/-- Where the numerators have the product of their values, up to a factor, so
have the fractions. -/
theorem mul (numerators : v.Numerators T₃) (left : v.RepresentsOver T₁ C r x)
    (right : v.RepresentsOver T₂ C s y) (product : Yields (r.num.mul s.num)
      (fun p => T₃ p ∧ v.poly p = z * (v.poly r.num * v.poly s.num))) :
    Yields (r.mul s) (v.RepresentsOver T₃ C · (z * (x * y))) := by
  obtain ⟨first, -⟩ := left
  obtain ⟨second, -⟩ := right
  rw [Fraction.mul_eq_make]
  refine Yields.bind_ok fun q ran => Ratio.make cancelling numerators ?_
  have sides := (cancelling.closed.productSides ⟨first.above, first.below⟩ second.above
    second.below).of_ok ran
  obtain ⟨a, above, ran⟩ := bind_eq_ok ran
  obtain ⟨b, below, ran⟩ := bind_eq_ok ran
  cases ran
  obtain ⟨top, value⟩ := product.of_ok above
  obtain ⟨bottom, product⟩ := (mul_ensures cancelling.divisible first.bottom
    second.bottom).of_ok below
  rw [divisible_poly, divisible_poly, divisible_poly] at product
  refine ⟨top, bottom, sides.1, sides.2, ?_⟩
  rw [value, product, first.value, second.value]
  ring

end RepresentsOver

namespace Represents

variable [Nontrivial A] (cancelling : v.Cancelling C)

include cancelling

theorem add (left : v.Represents C r x) (right : v.Represents C s y) :
    Yields (r.add s) (v.Represents C · (x + y)) :=
  RepresentsOver.add cancelling cancelling.lawful.numerators left right

theorem mul (left : v.Represents C r x) (right : v.Represents C s y) :
    Yields (r.mul s) (v.Represents C · (x * y)) := by
  have numerators := cancelling.lawful.numerators
  have product := RepresentsOver.mul (z := 1) cancelling numerators left right
    (by simpa only [one_mul] using numerators.mul left.ratio.top right.ratio.top)
  simpa only [one_mul] using product

/-- A fraction has an inverse, if its numerator may be divided by. -/
theorem inverse (represents : v.Represents C r x) (divisible : v.divisible.AdmitsPoly r.num) :
    Yields r.inverse (v.Represents C · (Ring.inverse x)) := by
  obtain ⟨ratio, -⟩ := represents
  unfold Fraction.inverse
  split
  · trivial
  rename_i proper
  have unit := cancelling.isUnit r.num divisible ratio.above (Bool.eq_false_iff.mpr proper)
  rw [ratio.value] at unit
  refine Ratio.make cancelling cancelling.lawful.numerators
    ⟨ratio.bottom.of_divisible, divisible, ratio.below, ratio.above, ?_⟩
  rw [ratio.value, Ring.inverse_mul_cancel_left _ _ (isUnit_of_mul_isUnit_left unit)]

theorem powInt (represents : v.Represents C r x) {n : Int}
    (divisible : n < 0 → v.divisible.AdmitsPoly r.num) (max : Nat) :
    Yields (r.powInt n max) (v.Represents C · (intPower x n)) := by
  have one : v.Represents C .one 1 := by
    have unit := Represents.constant (v := v) cancelling.closed 1
    rwa [map_one] at unit
  have power (b : Fraction) (y : A) (base : v.Represents C b y) :
      Yields (squaring Fraction.mul .one b n.natAbs) (v.Represents C · (1 * y ^ n.natAbs)) :=
    squaring_ensures (v.Represents C) (fun _ _ _ _ left right => left.mul cancelling right)
      n.natAbs one base
  unfold Fraction.powInt
  dsimp only
  split
  · trivial
  split
  · rename_i negative
    refine .bind (represents.inverse cancelling (divisible negative)) fun b base => ?_
    rw [intPower, if_neg (not_le.mpr negative)]
    simpa only [one_mul] using power b _ base
  · rename_i nonneg
    rw [intPower_of_nonneg (not_lt.mp nonneg)]
    have same : n.toNat = n.natAbs := by omega
    have final := power r x represents
    rw [one_mul] at final
    rw [same]
    exact final

theorem powNat (represents : v.Represents C r x) (n max : Nat) :
    Yields (r.powInt n max) (v.Represents C · (x ^ n)) := by
  have power := represents.powInt (n := n) cancelling (by omega) max
  rwa [intPower_of_nonneg (Int.natCast_nonneg n), Int.toNat_natCast] at power

end Represents

/-! ## Trees -/

/-- If the tree has a canonical form, then one that has the value `x`. -/
def Evaluates (v : Valuation A) (C : Poly → Prop) (max : Nat) (e : Expr) (x : A) : Prop :=
  Yields (Fraction.ofExpr max e) (v.Represents C · x)

namespace Evaluates

variable {max : Nat} {e : Expr} {xs : List Expr} {ys : List A}

theorem of_eq (ran : Fraction.ofExpr max e = .ok r) (represents : v.Represents C r x) :
    v.Evaluates C max e x := by
  unfold Evaluates
  rw [ran]
  exact represents

theorem number (cls : Poly.Class C) (q : Rat) :
    v.Evaluates C max (.number q) (algebraMap ℚ A q) := by
  unfold Evaluates
  rw [Fraction.ofExpr]
  exact .constant cls q

variable [Nontrivial A] (cancelling : v.Cancelling C)

include cancelling

theorem sum (each : List.Forall₂ (v.Evaluates C max) xs ys) :
    v.Evaluates C max (.sum xs) ys.sum := by
  have total := Fraction.ofSum_yields (v.Represents C)
    (fun _ _ _ _ left right => left.add cancelling right) each (.constant cancelling.closed 0)
  unfold Evaluates
  rw [Fraction.ofExpr]
  rwa [map_zero, zero_add] at total

theorem product (each : List.Forall₂ (v.Evaluates C max) xs ys) :
    v.Evaluates C max (.product xs) ys.prod := by
  have total := Fraction.ofProduct_yields (v.Represents C)
    (fun _ _ _ _ left right => left.mul cancelling right) each (.constant cancelling.closed 1)
  unfold Evaluates
  rw [Fraction.ofExpr]
  rwa [map_one, one_mul] at total

theorem power (base : v.Evaluates C max e x) (n : Nat) :
    v.Evaluates C max (.power e (.int n)) (x ^ n) := by
  unfold Evaluates
  rw [Fraction.ofExpr, Expr.int, Fraction.ofExpr]
  refine .bind base fun r represents => ?_
  change Yields (r.pow (.constant ((n : Int) : Rat)) max) _
  rw [Fraction.pow_int]
  split
  · exact represents.powNat cancelling n max
  · trivial

end Evaluates

end Valuation

end Discharge
