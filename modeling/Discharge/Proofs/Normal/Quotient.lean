import Discharge.Proofs.Normal.Division
import Discharge.Normal.Power

/-! The arithmetic of fractions computes in a field. As long as the
denominators and the conjugates that they are multiplied with have values other
than zero, a quotient is brought to canonical form without a change of its
value, and what fails is a size guard. -/

namespace Discharge

open Failure (IsRefusal)

theorem Poly.constant?_constant (q : Rat) : (Poly.constant q).constant? = some q := by
  unfold Poly.constant Poly.term
  split
  · rename_i zero
    rw [zero]
    rfl
  · rfl

theorem Poly.hasSymbols_constant (c : Rat) : (Poly.constant c).hasSymbols = false := by
  unfold Poly.constant Poly.term
  split
  · rw [Poly.zero, Poly.hasSymbols, termsHaveSymbols]
  · simp [Poly.zero, Poly.hasSymbols, termsHaveSymbols, Monomial.hasSymbols, factorsHaveSymbols]

namespace Fraction

/-- What the denominator is multiplied by to remove its surds, in order. -/
def conjugators : Nat → Poly → List Poly
  | 0, _ => []
  | rounds + 1, den =>
    match den.firstSurd? with
    | none => []
    | some surd =>
      conjugator den surd ::
        match den.mul (conjugator den surd) with
        | .ok den => conjugators rounds den
        | .error _ => []

/-- All that must not be zero for the quotient to be brought to canonical form:
the denominator and, unless the quotient is zero, what it is multiplied by. -/
def divisors (num den : Poly) : List Poly :=
  den :: if num.isZero then [] else conjugators maxRounds den

/-- The denominator is one, or the numerator is no rational multiple of it. -/
def Lowest (r : Fraction) : Prop := r.den = .one ∨ ∀ c, c ≠ 0 → r.num ≠ r.den.scale c

theorem constant?_constant (q : Rat) : (constant q).constant? = some q := by
  unfold constant? constant ofPoly
  rw [Poly.constant?_constant]
  rfl

/-- An integer literal as the exponent is an integer power, if it fits. -/
theorem pow_int (r : Fraction) (n : Int) (max : Nat) :
    r.pow (.constant (n : Rat)) max =
      if fitsInt64 n then r.powInt n max else .error (wideExponent n) := by
  unfold pow
  rw [constant?_constant]
  unfold powRat
  simp only [Rat.den_intCast, if_pos, Rat.num_intCast]
  by_cases fits : fitsInt64 n = true
  · simp only [fits]
    rfl
  · simp only [fits]
    rfl

end Fraction

namespace Valuation

/-! ## Surds -/

section Surds

variable {A : Type*} [CommRing A] [Algebra ℚ A] {v : Valuation A} {p den : Poly}

theorem AdmitsPoly.conjugate (admitted : v.AdmitsPoly p) (surd : Atom) :
    v.AdmitsPoly (p.conjugate surd) := by
  refine ⟨⟨List.pairwise_map.mpr admitted.ordered.increasing, fun t member => ?_⟩,
    fun t member => ?_⟩
  · obtain ⟨u, old, rfl⟩ := List.mem_map.mp member
    have nonzero := admitted.ordered.nonzero u old
    dsimp only
    split
    · exact neg_ne_zero.mpr nonzero
    · exact nonzero
  · obtain ⟨u, old, rfl⟩ := List.mem_map.mp member
    exact admitted.all u old

theorem firstSurd_known (admitted : v.AdmitsPoly p) {surd : Atom}
    (found : p.firstSurd? = some surd) : v.known surd := by
  obtain ⟨t, term, inner⟩ := List.exists_of_findSome?_eq_some found
  obtain ⟨f, factor, chosen⟩ := List.exists_of_findSome?_eq_some inner
  split at chosen
  · cases chosen
    exact ((admitted.all t term).factor f factor).known
  · cases chosen

theorem plain_of_firstSurd (none : p.firstSurd? = none) :
    ∀ t ∈ p.terms, ∀ f ∈ t.1.factors, f.1.isQuadraticSurd = false := by
  intro t term f factor
  have inner := List.findSome?_eq_none_iff.mp none t term
  have chosen := List.findSome?_eq_none_iff.mp inner f factor
  simpa using chosen

theorem conjugator_admitted (admitted : v.AdmitsPoly den) {surd : Atom}
    (found : den.firstSurd? = some surd) : v.AdmitsPoly (Fraction.conjugator den surd) := by
  unfold Fraction.conjugator
  split
  · exact .ofAtom (firstSurd_known admitted found)
  · exact admitted.conjugate surd

theorem poly_of_isZero (empty : p.isZero = true) : v.poly p = 0 := by
  obtain ⟨ts⟩ := p
  cases ts with
  | nil => exact v.poly_zero
  | cons t ts => cases empty

end Surds

variable {K : Type*} [Field K] [Algebra ℚ K]

/-- A valuation in a field under which fractions can be computed with: its laws
hold, also where no exponent is negative, and every atom that is not zero may be
divided by. -/
structure Dividing (v : Valuation K) : Prop where
  lawful : v.Lawful
  nonnegative : v.nonnegative.Lawful
  invertible : ∀ a, v.atom a ≠ 0 → v.invertible a

/-- The fraction is built from admitted monomials and has the value `x`. -/
structure Denotes (v : Valuation K) (r : Fraction) (x : K) : Prop where
  num : v.AdmitsPoly r.num
  den : v.AdmitsPoly r.den
  regular : v.poly r.den ≠ 0
  value : v.poly r.num = x * v.poly r.den

variable {v : Valuation K} {r s : Fraction} {x y : K} {num den p : Poly} {m : Monomial}

theorem Denotes.eq_div (denotes : v.Denotes r x) : x = v.poly r.num / v.poly r.den := by
  rw [denotes.value, mul_div_cancel_right₀ _ denotes.regular]

theorem Denotes.of_poly (admitted : v.AdmitsPoly p) : v.Denotes (.ofPoly p) (v.poly p) :=
  ⟨admitted, .one, by simp [Fraction.ofPoly], by simp [Fraction.ofPoly]⟩

/-! ## Removing surds -/

theorem isZero_of_value (regular : v.poly p ≠ 0) : p.isZero = false := by
  rw [← Bool.not_eq_true]
  intro empty
  exact regular (poly_of_isZero empty)

/-- Removing the surds from a denominator keeps the quotient. -/
theorem rationalise_ensures (lawful : v.Lawful) (rounds : Nat) (top : v.AdmitsPoly num)
    (bottom : v.AdmitsPoly den) (regular : v.poly den ≠ 0)
    (conjugates : ∀ d ∈ Fraction.conjugators rounds den, v.poly d ≠ 0) :
    Ensures (Fraction.rationalise rounds num den) (fun q => v.AdmitsPoly q.1 ∧
      v.AdmitsPoly q.2 ∧ v.poly q.2 ≠ 0 ∧ q.2.firstSurd? = none ∧
      v.poly q.1 / v.poly q.2 = v.poly num / v.poly den) IsRefusal := by
  induction rounds generalizing num den with
  | zero =>
    rw [Fraction.rationalise]
    split
    · exact ⟨top, bottom, regular, ‹_›, rfl⟩
    · exact .inl ⟨_, rfl⟩
  | succ rounds ih =>
    rw [Fraction.rationalise]
    rw [Fraction.conjugators] at conjugates
    split
    · exact ⟨top, bottom, regular, ‹_›, rfl⟩
    rename_i surd found
    rw [found] at conjugates
    obtain ⟨head, tail⟩ := List.forall_mem_cons.mp conjugates
    have factor := conjugator_admitted bottom found
    refine .bind (mul_ensures lawful top factor).isRefusal ?_
    rintro num' ⟨top', above⟩
    have product := (mul_ensures lawful bottom factor).isRefusal
    cases ran : den.mul (Fraction.conjugator den surd) with
    | error e =>
      rw [ran] at product
      exact product
    | ok den' =>
      rw [ran] at product tail
      obtain ⟨bottom', below⟩ := product
      have regular' : v.poly den' ≠ 0 := by
        rw [below]
        exact mul_ne_zero regular head
      have step : (bind (Except.ok den' : Outcome Poly) fun den => do
          if den.isZero then throw Fraction.zeroDenominator
          Fraction.rationalise rounds num' den) = Fraction.rationalise rounds num' den' := by
        simp only [bind, Except.bind, isZero_of_value regular']
        rfl
      rw [step]
      refine (ih top' bottom' regular' tail).mono
        fun q ⟨top'', bottom'', regular'', plain, value⟩ =>
          ⟨top'', bottom'', regular'', plain, ?_⟩
      rw [value, above, below, mul_div_mul_right _ _ head]

/-! ## The common monomial and single terms -/

theorem singleTerm_eq {t : Monomial × Rat} (single : p.singleTerm? = some t) : p = ⟨[t]⟩ := by
  obtain ⟨ts⟩ := p
  unfold Poly.singleTerm? at single
  split at single
  · rename_i u terms
    cases single
    exact congrArg Poly.mk terms
  · cases single

/-- Dividing by the common monomial keeps the quotient.  A single term that is
left as the denominator has only positive exponents. -/
theorem cancelMonomial_ensures (dividing : v.Dividing) (top : v.AdmitsPoly num)
    (bottom : v.AdmitsPoly den) (regular : v.poly den ≠ 0) (plain : den.firstSurd? = none) :
    Ensures (Fraction.cancelMonomial num den) (fun q => v.AdmitsPoly q.1 ∧
      v.AdmitsPoly q.2 ∧ v.poly q.2 ≠ 0 ∧
      v.poly q.1 / v.poly q.2 = v.poly num / v.poly den ∧
      ∀ t, q.2.singleTerm? = some t → ∀ f ∈ t.1.factors, 0 < f.2) IsRefusal := by
  have surdless := plain_of_firstSurd plain
  have increasing := bottom.all.mono fun m holds => holds.increasing
  unfold Fraction.cancelMonomial
  dsimp only
  split
  · rename_i one
    refine ⟨top, bottom, regular, rfl, fun t single f member => ?_⟩
    obtain rfl := singleTerm_eq single
    -- The exponents are at least those of the common monomial, which has none.
    have below := Poly.count_commonMonomial_le increasing
      (surdless t (List.mem_singleton.mpr rfl) f member) (List.mem_singleton.mpr rfl)
    have admitted := bottom.all t (List.mem_singleton.mpr rfl)
    have empty : (Poly.commonMonomial ⟨[t]⟩).factors = [] := by
      simpa using (Bool.and_eq_true_iff.mp one).1
    rw [Monomial.count_eq, Monomial.count_eq, empty,
      Monomial.exponentIn_of_mem admitted.increasing member] at below
    exact lt_of_le_of_ne below (admitted.factor f member).nonzero.symm
  · have atoms := commonMonomial_atom_ne_zero bottom regular
    refine .bind (den.commonMonomial.inverse_ensures.mono_error fun _ => .inr) ?_
    rintro _ ⟨invertible, rfl⟩
    have inverse : v.Admits den.commonMonomial.reciprocal :=
      bottom.commonMonomial.reciprocal invertible fun f member =>
        dividing.invertible f.1 (atoms f member)
    have nonzero : v.monomial den.commonMonomial.reciprocal ≠ 0 := by
      refine monomial_ne_zero fun f member => ?_
      obtain ⟨g, old, rfl⟩ := List.mem_map.mp member
      exact atoms g old
    refine .bind (shift_ensures dividing.lawful top inverse).isRefusal ?_
    rintro num' ⟨top', above⟩
    have shifted := (shift_ensures dividing.lawful bottom inverse).isRefusal
    refine .bind (shifted.and fun den' ran => shift_commonMonomial_nonnegative
      dividing.nonnegative bottom inverse surdless ran)
      fun den' ⟨⟨bottom', below⟩, positive⟩ => ⟨top', bottom', ?_, ?_, fun t single f member => ?_⟩
    · rw [below]
      exact mul_ne_zero regular nonzero
    · rw [above, below, mul_div_mul_right _ _ nonzero]
    · obtain rfl := singleTerm_eq single
      exact nonnegative_factor ((positive.all t (List.mem_singleton.mpr rfl)).factor f member)

/-- A denominator of one term is divided out. -/
theorem divide_single (dividing : v.Dividing) (top : v.AdmitsPoly num) {c : Rat}
    (bottom : v.AdmitsPoly ⟨[(m, c)]⟩) (regular : v.poly ⟨[(m, c)]⟩ ≠ 0)
    (invertible : m.isInvertible = true) :
    Ensures (num.shift m.reciprocal) (fun q => v.Denotes (.ofPoly (q.scale c⁻¹))
      (v.poly num / v.poly ⟨[(m, c)]⟩)) IsRefusal := by
  have admitted : v.Admits m := bottom.all (m, c) (List.mem_singleton.mpr rfl)
  have value : v.poly ⟨[(m, c)]⟩ = algebraMap ℚ K c * v.monomial m := by simp [poly_eq]
  rw [value] at regular ⊢
  have atoms := admitted.atom_ne_zero (right_ne_zero_of_mul regular)
  have inverse := admitted.reciprocal invertible fun f member =>
    dividing.invertible f.1 (atoms f member)
  refine (shift_ensures dividing.lawful top inverse).isRefusal.mono ?_
  rintro q ⟨shifted, product⟩
  have quotient : v.poly (q.scale c⁻¹) = v.poly num / (algebraMap ℚ K c * v.monomial m) := by
    rw [poly_scale, product, monomial_reciprocal, map_inv₀, div_eq_mul_inv, mul_inv]
    ring
  rw [← quotient]
  exact .of_poly (shifted.scale _)

/-! ## Monic denominators -/

theorem leading_of_value (regular : v.poly p ≠ 0) : ∃ m c ts, p = ⟨(m, c) :: ts⟩ := by
  obtain ⟨ts⟩ := p
  cases ts with
  | nil => simp [poly_eq] at regular
  | cons t ts => exact ⟨t.1, t.2, ts, rfl⟩

/-- The monic form is the ratio of the sides if the numerator is a multiple of
the denominator, and the two sides scaled otherwise. -/
theorem monic_cases (num : Poly) (m : Monomial) {c : Rat} (coefficient : c ≠ 0)
    (ts : List (Monomial × Rat)) :
    (∃ ratio, Fraction.monic num ⟨(m, c) :: ts⟩ = .constant ratio ∧
        num.scale c⁻¹ = (Poly.scale ⟨(m, c) :: ts⟩ c⁻¹).scale ratio) ∨
      Fraction.monic num ⟨(m, c) :: ts⟩ = ⟨num.scale c⁻¹, Poly.scale ⟨(m, c) :: ts⟩ c⁻¹⟩ ∧
        ∀ k, k ≠ 0 → num.scale c⁻¹ ≠ (Poly.scale ⟨(m, c) :: ts⟩ c⁻¹).scale k := by
  have scaled : Poly.scale ⟨(m, c) :: ts⟩ c⁻¹ = ⟨(m, 1) :: ts.map fun t => (t.1, t.2 * c⁻¹)⟩ := by
    simp [Poly.scale, coefficient]
  have multiple : ∀ k, k ≠ 0 → num.scale c⁻¹ = (Poly.scale ⟨(m, c) :: ts⟩ c⁻¹).scale k →
      (num.scale c⁻¹).leading? = some k ∧
        (num.scale c⁻¹).terms.length = (Poly.scale ⟨(m, c) :: ts⟩ c⁻¹).terms.length := by
    intro k nonzero same
    rw [same, scaled]
    simp [Poly.leading?, Poly.scale, nonzero]
  unfold Fraction.monic
  simp only [show (Poly.leading? ⟨(m, c) :: ts⟩) = some c from rfl, Option.getD_some]
  split
  · rename_i ratio first
    split
    · rename_i found
      exact .inl ⟨ratio, rfl, found.2⟩
    · rename_i different
      refine .inr ⟨rfl, fun k nonzero same => different ?_⟩
      obtain ⟨leading, length⟩ := multiple k nonzero same
      obtain rfl : ratio = k := Option.some_injective _ (first.symm.trans leading)
      exact ⟨length, same⟩
  · rename_i none
    refine .inr ⟨rfl, fun k nonzero same => ?_⟩
    have leading := (multiple k nonzero same).1
    rw [none] at leading
    cases leading

/-- Making the first coefficient of the denominator one keeps the quotient. -/
theorem monic_denotes (top : v.AdmitsPoly num) (bottom : v.AdmitsPoly den)
    (regular : v.poly den ≠ 0) :
    v.Denotes (Fraction.monic num den) (v.poly num / v.poly den) ∧
      (Fraction.monic num den).Lowest := by
  obtain ⟨m, c, ts, rfl⟩ := leading_of_value regular
  have coefficient : c ≠ 0 := bottom.ordered.nonzero (m, c) List.mem_cons_self
  have inverse : algebraMap ℚ K c⁻¹ ≠ 0 := (map_ne_zero _).mpr (inv_ne_zero coefficient)
  rcases monic_cases num m coefficient ts with ⟨ratio, constant, multiple⟩ | ⟨sides, different⟩
  · have value : v.poly num / v.poly ⟨(m, c) :: ts⟩ = v.poly (.constant ratio) := by
      have equal := congrArg v.poly multiple
      simp only [poly_scale] at equal
      rw [poly_constant, div_eq_iff regular]
      exact mul_left_cancel₀ inverse (by rw [equal]; ring)
    rw [constant, value]
    exact ⟨.of_poly (.constant ratio), .inl rfl⟩
  · rw [sides]
    refine ⟨⟨top.scale _, bottom.scale _, ?_, ?_⟩, .inr different⟩
    · rw [poly_scale]
      exact mul_ne_zero inverse regular
    · rw [poly_scale, poly_scale, mul_left_comm, div_mul_cancel₀ _ regular]

/-! ## Quotients -/

/-- The canonical form of a quotient has its value, as long as the denominator
and the conjugates that it is multiplied with are not zero. -/
theorem make_ensures (dividing : v.Dividing) (top : v.AdmitsPoly num) (bottom : v.AdmitsPoly den)
    (divisors : ∀ d ∈ Fraction.divisors num den, v.poly d ≠ 0) :
    Ensures (Fraction.make num den)
      (fun r => v.Denotes r (v.poly num / v.poly den) ∧ r.Lowest) IsRefusal := by
  obtain ⟨regular, conjugates⟩ := List.forall_mem_cons.mp divisors
  unfold Fraction.make
  rw [isZero_of_value regular]
  simp only [Bool.false_eq_true, if_false]
  by_cases zero : num.isZero
  · obtain ⟨ts⟩ := num
    obtain rfl : ts = [] := List.isEmpty_iff.mp zero
    refine ⟨?_, .inl rfl⟩
    have denotes : v.Denotes .zero (v.poly .zero) := .of_poly .zero
    rwa [poly_zero, ← zero_div (v.poly den), ← v.poly_zero] at denotes
  simp only [zero]
  rw [if_neg zero] at conjugates
  refine .bind (rationalise_ensures dividing.lawful _ top bottom regular conjugates) ?_
  rintro q ⟨top', bottom', regular', plain, value'⟩
  refine .bind (cancelMonomial_ensures dividing top' bottom' regular' plain) ?_
  rintro q' ⟨top'', bottom'', regular'', value'', -⟩
  rw [← value', ← value'']
  split
  · rename_i m c single
    obtain ⟨num'', den''⟩ := q'
    obtain rfl := singleTerm_eq single
    refine .bind (m.inverse_ensures.mono_error fun _ => .inr) ?_
    rintro _ ⟨invertible, rfl⟩
    exact .bind (divide_single dividing top'' bottom'' regular'' invertible)
      fun q denotes => ⟨denotes, .inl rfl⟩
  · exact monic_denotes top'' bottom'' regular''

end Valuation

/-! ## Arithmetic

A sum, a product and a quotient of fractions bring their two sides to canonical
form. -/

namespace Fraction

/-- The sides of a sum. -/
def sumSides (r s : Fraction) : Outcome (Poly × Poly) :=
  if r.den = s.den then .ok (r.num.add s.num, r.den)
  else do
    let left ← r.num.mul s.den
    let right ← s.num.mul r.den
    return (left.add right, ← r.den.mul s.den)

/-- The sides of a product with a quotient. -/
def productSides (r : Fraction) (num den : Poly) : Outcome (Poly × Poly) := do
  let top ← r.num.mul num
  return (top, ← r.den.mul den)

theorem add_eq_make (r s : Fraction) : r.add s = sumSides r s >>= fun q => make q.1 q.2 := by
  unfold add sumSides
  split
  · rfl
  · simp

theorem mul_eq_make (r s : Fraction) :
    r.mul s = r.productSides s.num s.den >>= fun q => make q.1 q.2 := by
  simp [mul, productSides]

theorem div_eq_make (r s : Fraction) :
    r.div s = if s.isZero then .error (.divisionByZero "division by an expression equal to zero")
      else r.productSides s.den s.num >>= fun q => make q.1 q.2 := by
  unfold div productSides
  split
  · rfl
  · simp

end Fraction

namespace Valuation

variable {K : Type*} [Field K] [Algebra ℚ K] {v : Valuation K} {r s : Fraction} {x y : K}
  {num den : Poly}

/-- The two sides have the quotient `x`, if they have one. -/
structure Sides (v : Valuation K) (num den : Poly) (x : K) : Prop where
  top : v.AdmitsPoly num
  bottom : v.AdmitsPoly den
  value : v.poly den ≠ 0 → v.poly num / v.poly den = x

theorem Denotes.sides (denotes : v.Denotes r x) : v.Sides r.num r.den x :=
  ⟨denotes.num, denotes.den, fun _ => denotes.eq_div.symm⟩

theorem Denotes.reciprocal (denotes : v.Denotes r x) : v.Sides r.den r.num x⁻¹ :=
  ⟨denotes.den, denotes.num, fun _ => by rw [denotes.eq_div, inv_div]⟩

theorem sumSides_ensures (lawful : v.Lawful) (left : v.Denotes r x) (right : v.Denotes s y) :
    Ensures (Fraction.sumSides r s)
      (fun q => v.Sides q.1 q.2 (x + y) ∧ v.poly q.2 ≠ 0) IsRefusal := by
  unfold Fraction.sumSides
  split
  · rename_i same
    refine ⟨⟨left.num.add right.num, left.den, fun regular => ?_⟩, left.regular⟩
    dsimp only at regular ⊢
    rw [poly_add, left.value, right.value, ← same, ← add_mul, mul_div_cancel_right₀ _ regular]
  · refine .bind (mul_ensures lawful left.num right.den).isRefusal ?_
    rintro a ⟨first, across⟩
    refine .bind (mul_ensures lawful right.num left.den).isRefusal ?_
    rintro b ⟨second, across'⟩
    refine .bind (mul_ensures lawful left.den right.den).isRefusal ?_
    rintro c ⟨third, below⟩
    refine ⟨⟨first.add second, third, fun regular => ?_⟩, ?_⟩
    · rw [poly_add, div_eq_iff regular, across, across', below, left.value, right.value]
      ring
    · dsimp only
      rw [below]
      exact mul_ne_zero left.regular right.regular

theorem productSides_ensures (lawful : v.Lawful) (left : v.Denotes r x)
    (right : v.Sides num den y) :
    Ensures (r.productSides num den)
      (fun q => v.Sides q.1 q.2 (x * y) ∧ (v.poly den ≠ 0 → v.poly q.2 ≠ 0)) IsRefusal := by
  refine .bind (mul_ensures lawful left.num right.top).isRefusal ?_
  rintro a ⟨first, above⟩
  refine .bind (mul_ensures lawful left.den right.bottom).isRefusal ?_
  rintro c ⟨second, below⟩
  refine ⟨⟨first, second, fun regular => ?_⟩, fun regular => ?_⟩
  · dsimp only at regular ⊢
    rw [below] at regular
    rw [above, below, mul_div_mul_comm, ← left.eq_div, right.value (right_ne_zero_of_mul regular)]
  · dsimp only
    rw [below]
    exact mul_ne_zero left.regular regular

end Valuation

end Discharge
