import Discharge.Proofs.Rational.Denotation
import Discharge.Proofs.Rational.Uniqueness
import Discharge.Normal.OfExpr

/-! The canonical form of a rational expression represents the rational function
that the expression denotes. A canonical form of another shape has another
value, so that the tests for zero and for a constant are exact. What fails is a
size guard, or a negative power whose base denotes zero. -/

namespace Discharge

open Failure (IsRefusal IsDivisionByZero)

namespace RationalFunction

/-- The fraction has the value `f` and is in lowest form; zero is a whole. -/
structure Represents (r : Fraction) (f : RationalFunction) : Prop where
  denotes : valuation.Denotes r f
  lowest : r.Lowest
  whole : r.num.isZero = true → r.den = .one

variable {r s : Fraction} {f g x y : RationalFunction} {p num den : Poly} {n : Int}

theorem Represents.of_poly (admitted : valuation.AdmitsPoly p) :
    Represents (.ofPoly p) (valuation.poly p) :=
  ⟨.of_poly admitted, .inl rfl, fun _ => rfl⟩

theorem Represents.constant (q : Rat) :
    Represents (.constant q) (algebraMap ℚ RationalFunction q) := by
  rw [← valuation.poly_constant q]
  exact .of_poly (.constant q)

theorem Represents.zero : Represents .zero 0 := by
  rw [← valuation.poly_zero]
  exact .of_poly .zero

theorem Represents.one : Represents .one 1 := by
  rw [← valuation.poly_one]
  exact .of_poly .one

theorem Represents.isZero_iff (represents : Represents r f) : r.isZero = true ↔ f = 0 := by
  have value := represents.denotes.value
  unfold Fraction.isZero
  rw [← poly_eq_zero_iff represents.denotes.num, value, mul_eq_zero]
  exact or_iff_left represents.denotes.regular

/-! ## Arithmetic -/

theorem firstSurd_eq_none (admitted : valuation.AdmitsPoly p) : p.firstSurd? = none := by
  by_contra found
  obtain ⟨surd, found⟩ := Option.ne_none_iff_exists'.mp found
  obtain ⟨t, term, inner⟩ := List.exists_of_findSome?_eq_some found
  obtain ⟨a, factor, chosen⟩ := List.exists_of_findSome?_eq_some inner
  obtain ⟨s, symbol⟩ := ((admitted.all t term).factor a factor).known
  rw [symbol] at chosen
  cases chosen

theorem make_represents (top : valuation.AdmitsPoly num) (bottom : valuation.AdmitsPoly den)
    (regular : valuation.poly den ≠ 0) :
    Ensures (Fraction.make num den)
      (fun r => Represents r (valuation.poly num / valuation.poly den)) IsRefusal := by
  have conjugates : Fraction.conjugators Fraction.maxRounds den = [] := by
    rw [Fraction.maxRounds, Fraction.conjugators, firstSurd_eq_none bottom]
  have divisors : Fraction.divisors num den = [den] := by
    rw [Fraction.divisors, conjugates, ite_self]
  have made := Valuation.make_ensures dividing top bottom (by simpa [divisors] using regular)
  by_cases zero : num.isZero = true
  · -- Zero is returned at once.
    have ran : Fraction.make num den = .ok .zero := by
      simp only [Fraction.make, Valuation.isZero_of_value regular, zero]
      rfl
    rw [ran] at made ⊢
    exact ⟨made.1, made.2, fun _ => rfl⟩
  · refine made.mono ?_
    rintro r ⟨denotes, lowest⟩
    refine ⟨denotes, lowest, fun empty => ?_⟩
    have value := denotes.value
    rw [(poly_eq_zero_iff denotes.num).mpr empty] at value
    rcases mul_eq_zero.mp value.symm with quotient | absurd'
    · exact absurd ((poly_eq_zero_iff top).mp ((div_eq_zero_iff.mp quotient).resolve_right regular))
        zero
    · exact absurd absurd' denotes.regular

theorem add_represents (left : Represents r x) (right : Represents s y) :
    Ensures (r.add s) (fun t => Represents t (x + y)) IsRefusal := by
  rw [Fraction.add_eq_make]
  refine .bind (Valuation.sumSides_ensures dividing.lawful left.denotes right.denotes) ?_
  rintro q ⟨sides, regular⟩
  rw [← sides.value regular]
  exact make_represents sides.top sides.bottom regular

theorem mul_represents (left : Represents r x) (right : Represents s y) :
    Ensures (r.mul s) (fun t => Represents t (x * y)) IsRefusal := by
  rw [Fraction.mul_eq_make]
  refine .bind (Valuation.productSides_ensures dividing.lawful left.denotes right.denotes.sides) ?_
  rintro q ⟨sides, below⟩
  have regular := below right.denotes.regular
  rw [← sides.value regular]
  exact make_represents sides.top sides.bottom regular

theorem inverse_represents (represents : Represents r x) (regular : x ≠ 0) :
    Ensures r.inverse (fun t => Represents t x⁻¹) IsRefusal := by
  have nonzero : ¬ r.isZero = true := fun empty => regular (represents.isZero_iff.mp empty)
  have value := represents.denotes.value
  have top : valuation.poly r.num ≠ 0 := by
    rw [value]
    exact mul_ne_zero regular represents.denotes.regular
  unfold Fraction.inverse
  rw [if_neg nonzero]
  have sides := represents.denotes.reciprocal
  rw [← sides.value top]
  exact make_represents sides.top sides.bottom top

/-- An integer power fails at a size guard, or because it is a negative power of
zero. -/
theorem powInt_represents (represents : Represents r x) (max : Nat) :
    Ensures (r.powInt n max) (fun t => ∃ y, integerPower x n = some y ∧ Represents t y)
      (fun e => e.IsRefusal ∨ e.IsDivisionByZero ∧ n < 0 ∧ x = 0) := by
  have power : ∀ b y, Represents b y → Ensures (squaring Fraction.mul .one b n.natAbs)
      (fun t => Represents t (1 * y ^ n.natAbs)) IsRefusal := fun b y base =>
    squaring_ensures Represents (fun r s x y left right => mul_represents left right) n.natAbs
      .one base
  unfold Fraction.powInt
  dsimp only
  split
  · exact .inl (.inl ⟨_, rfl⟩)
  split
  · rename_i negative
    by_cases zero : x = 0
    · -- The reciprocal of zero is refused.
      have failed : r.inverse = .error (.divisionByZero "reciprocal of zero") := by
        unfold Fraction.inverse
        rw [if_pos (represents.isZero_iff.mpr zero)]
      rw [failed]
      exact .inr ⟨⟨_, rfl⟩, negative, zero⟩
    · refine Ensures.mono_error (.bind (inverse_represents represents zero)
        fun b base => (power b x⁻¹ base).mono fun t holds => ⟨x ^ n, ?_, ?_⟩) fun e large => .inl large
      · exact integerPower_eq_some.mpr ⟨fun impossible => zero impossible.2, rfl⟩
      · have value : 1 * x⁻¹ ^ n.natAbs = x ^ n := by
          obtain ⟨k, rfl⟩ := Int.eq_negSucc_of_lt_zero negative
          simp [Int.natAbs_negSucc, zpow_negSucc]
        rwa [value] at holds
  · rename_i nonneg
    refine Ensures.mono_error ((power r x represents).mono fun t holds => ⟨x ^ n, ?_, ?_⟩)
      fun e large => .inl large
    · exact integerPower_eq_some.mpr ⟨fun impossible => nonneg impossible.1, rfl⟩
    · have value : 1 * x ^ n.natAbs = x ^ n := by
        obtain ⟨k, rfl⟩ := Int.eq_ofNat_of_zero_le (not_lt.mp nonneg)
        simp
      rwa [value] at holds

/-! ## Expressions -/

/-- A failure that normalising `e` may end with: a size guard, or a division by
zero for which a negative power of zero is to blame. -/
def Excused (e : Expr) (failure : Failure) : Prop :=
  failure.IsRefusal ∨ failure.IsDivisionByZero ∧
    ∃ b n, Expr.Subterm (.power b (.int n)) e ∧ n < 0 ∧ b.denote = some 0

theorem Excused.mono {a b : Expr} {failure : Failure} (excused : Excused a failure)
    (inside : ∀ x, Expr.Subterm x a → Expr.Subterm x b) : Excused b failure := by
  rcases excused with large | ⟨division, c, n, subterm, negative, zero⟩
  · exact .inl large
  · exact .inr ⟨division, c, n, inside _ subterm, negative, zero⟩

/-- What the canonical form of an expression has to be. -/
def Normalises (max : Nat) (e : Expr) : Prop :=
  Ensures (Fraction.ofExpr max e) (fun r => ∃ f, e.denote = some f ∧ Represents r f) (Excused e)

theorem ofSum_ensures {max : Nat} {e : Expr} {xs : List Expr} (each : ∀ x ∈ xs, Normalises max x)
    (inside : ∀ x ∈ xs, ∀ y, Expr.Subterm y x → Expr.Subterm y e) (start : Represents r x) :
    Ensures (Fraction.ofSum max r xs)
      (fun s => ∃ fs, Expr.denoteAll xs = some fs ∧ Represents s (x + fs.sum)) (Excused e) := by
  induction xs generalizing r x with
  | nil =>
    rw [Fraction.ofSum]
    exact ⟨[], Expr.denoteAll_nil, by simpa using start⟩
  | cons y ys ih =>
    obtain ⟨head, tail⟩ := List.forall_mem_cons.mp each
    obtain ⟨within, inside⟩ := List.forall_mem_cons.mp inside
    rw [Fraction.ofSum]
    refine .bind (head.mono_error fun e excused => excused.mono within) ?_
    rintro s ⟨f, denotes, next⟩
    refine .bind ((add_represents start next).mono_error fun e large => .inl large) ?_
    intro t total
    refine (ih tail inside total).mono ?_
    rintro u ⟨fs, rest, final⟩
    refine ⟨f :: fs, ?_, ?_⟩
    · exact Expr.denoteAll_cons_eq_some.mpr ⟨f, fs, denotes, rest, rfl⟩
    · rwa [List.sum_cons, ← add_assoc]

theorem ofProduct_ensures {max : Nat} {e : Expr} {xs : List Expr}
    (each : ∀ x ∈ xs, Normalises max x)
    (inside : ∀ x ∈ xs, ∀ y, Expr.Subterm y x → Expr.Subterm y e) (start : Represents r x) :
    Ensures (Fraction.ofProduct max r xs)
      (fun s => ∃ fs, Expr.denoteAll xs = some fs ∧ Represents s (x * fs.prod)) (Excused e) := by
  induction xs generalizing r x with
  | nil =>
    rw [Fraction.ofProduct]
    exact ⟨[], Expr.denoteAll_nil, by simpa using start⟩
  | cons y ys ih =>
    obtain ⟨head, tail⟩ := List.forall_mem_cons.mp each
    obtain ⟨within, inside⟩ := List.forall_mem_cons.mp inside
    rw [Fraction.ofProduct]
    refine .bind (head.mono_error fun e excused => excused.mono within) ?_
    rintro s ⟨f, denotes, next⟩
    refine .bind ((mul_represents start next).mono_error fun e large => .inl large) ?_
    intro t total
    refine (ih tail inside total).mono ?_
    rintro u ⟨fs, rest, final⟩
    refine ⟨f :: fs, ?_, ?_⟩
    · exact Expr.denoteAll_cons_eq_some.mpr ⟨f, fs, denotes, rest, rfl⟩
    · rwa [List.prod_cons, ← mul_assoc]

/-- Normalising a rational expression gives the rational function that it
denotes. -/
theorem normalises (max : Nat) {e : Expr} (rational : e.IsRational) : Normalises max e := by
  induction rational with
  | number q =>
    unfold Normalises
    rw [Fraction.ofExpr]
    exact ⟨_, Expr.denote_number q, .constant q⟩
  | symbol s =>
    unfold Normalises
    rw [Fraction.ofExpr]
    refine ⟨var s, Expr.denote_symbol s, ?_⟩
    have symbol := Represents.of_poly (.ofAtom (v := valuation) (a := .symbol s) ⟨s, rfl⟩)
    rwa [Valuation.poly_ofAtom] at symbol
  | @sum xs each ih =>
    unfold Normalises
    rw [Fraction.ofExpr]
    refine (ofSum_ensures ih (fun x member y inside => .sum member inside) .zero).mono ?_
    rintro r ⟨fs, denotes, represents⟩
    refine ⟨fs.sum, ?_, ?_⟩
    · exact Expr.denote_sum_eq_some.mpr ⟨fs, denotes, rfl⟩
    · rwa [zero_add] at represents
  | @product xs each ih =>
    unfold Normalises
    rw [Fraction.ofExpr]
    refine (ofProduct_ensures ih (fun x member y inside => .product member inside) .one).mono ?_
    rintro r ⟨fs, denotes, represents⟩
    refine ⟨fs.prod, ?_, ?_⟩
    · exact Expr.denote_product_eq_some.mpr ⟨fs, denotes, rfl⟩
    · rwa [one_mul] at represents
  | @power b n base ih =>
    unfold Normalises
    rw [Fraction.ofExpr]
    refine .bind (ih.mono_error fun e excused => excused.mono fun x inside => .base inside) ?_
    rintro r ⟨f, denotes, represents⟩
    have literal : Fraction.ofExpr max (.int n) = .ok (.constant n) := by
      rw [Expr.int, Fraction.ofExpr]
    rw [literal]
    change Ensures (r.pow (.constant n) max) _ _
    rw [Fraction.pow_int]
    split
    · refine Ensures.mono_error ((powInt_represents represents max).mono ?_) ?_
      · rintro t ⟨y, power, final⟩
        refine ⟨y, ?_, final⟩
        rw [Expr.denote_power, denotes, Option.bind_some, power]
      · rintro failure (large | ⟨division, negative, zero⟩)
        · exact .inl large
        · exact .inr ⟨division, b, n, .refl _, negative, by rw [denotes, zero]⟩
    · exact .inl (.inl ⟨_, rfl⟩)

/-! ## Constants -/

theorem factors_eq_nil {fs : List (Atom × Int)} (each : ∀ a ∈ fs, valuation.AdmitsFactor a)
    (free : factorsHaveSymbols fs = false) : fs = [] := by
  cases fs with
  | nil => rfl
  | cons a fs =>
    obtain ⟨s, symbol⟩ := (each a List.mem_cons_self).known
    obtain ⟨b, k⟩ := a
    cases symbol
    rw [factorsHaveSymbols, Atom.hasSymbols] at free
    cases free

theorem monomial_eq_one {m : Monomial} (admitted : valuation.Admits m)
    (free : m.hasSymbols = false) : m = .one := by
  have exponent := exp_eq_zero admitted
  obtain ⟨fs, e⟩ := m
  rw [Monomial.hasSymbols, Bool.or_eq_false_iff] at free
  obtain rfl : fs = [] := factors_eq_nil admitted.factor free.1
  exact congrArg (Monomial.mk []) exponent

/-- Only constants are free of symbols. -/
theorem hasSymbols_eq_false_iff (admitted : valuation.AdmitsPoly p) :
    p.hasSymbols = false ↔ ∃ c, p = .constant c := by
  constructor
  · intro free
    obtain ⟨ts⟩ := p
    rw [Poly.hasSymbols] at free
    cases ts with
    | nil => exact ⟨0, rfl⟩
    | cons t ts =>
      obtain ⟨m, c⟩ := t
      rw [termsHaveSymbols, Bool.or_eq_false_iff] at free
      obtain ⟨nonzero, after, -⟩ := Poly.ordered_cons.mp admitted.ordered
      obtain rfl := monomial_eq_one (admitted.all (m, c) List.mem_cons_self) free.1
      refine ⟨c, ?_⟩
      cases ts with
      | nil => exact (if_neg nonzero).symm
      | cons u us =>
        -- A second term would have the same monomial.
        obtain ⟨n, d⟩ := u
        rw [termsHaveSymbols, Bool.or_eq_false_iff] at free
        have member : (n, d) ∈ (Monomial.one, c) :: (n, d) :: us := by simp
        obtain rfl := monomial_eq_one (admitted.all _ member) free.2.1
        have less := after _ List.mem_cons_self
        simp [(Monomial.compare_eq_iff .one .one).mpr rfl] at less
  · rintro ⟨c, rfl⟩
    exact Poly.hasSymbols_constant c

/-- A canonical form is free of symbols exactly if its value is a rational
number. -/
theorem Represents.hasSymbols_iff (represents : Represents r f) :
    r.hasSymbols = false ↔ ∃ q : ℚ, f = algebraMap ℚ RationalFunction q := by
  obtain ⟨denotes, lowest, whole⟩ := represents
  obtain ⟨num, den⟩ := r
  rw [Fraction.hasSymbols, Bool.or_eq_false_iff, hasSymbols_eq_false_iff denotes.num,
    hasSymbols_eq_false_iff denotes.den]
  constructor
  · rintro ⟨⟨c, top⟩, d, bottom⟩
    dsimp only at top bottom
    refine ⟨c / d, ?_⟩
    rw [denotes.eq_div, top, bottom, Valuation.poly_constant, Valuation.poly_constant, map_div₀]
  · rintro ⟨q, rfl⟩
    have value := denotes.value
    rw [← Valuation.poly_scale] at value
    have multiple : num = den.scale q := poly_injective denotes.num (denotes.den.scale q) value
    have one : den = .one := by
      rcases lowest with one | proper
      · exact one
      · by_cases zero : q = 0
        · refine whole ?_
          dsimp only
          rw [multiple, zero, Poly.scale, if_pos rfl]
          rfl
        · exact absurd multiple (proper q zero)
    refine ⟨⟨q, ?_⟩, 1, one⟩
    dsimp only
    refine poly_injective denotes.num (.constant q) ?_
    rw [denotes.value]
    dsimp only
    rw [one, Valuation.poly_one, Valuation.poly_constant, mul_one]

end RationalFunction

end Discharge
