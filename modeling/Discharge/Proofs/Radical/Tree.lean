import Discharge.Proofs.Radical.Normalisation
import Discharge.Proofs.Radical.TrialDivision
import Discharge.Proofs.Tree

/-! Trees of exact canonical forms. The tree has the value of the form and is made
of the same radicals, so that it can be normalised again; without symbols the
value is a real number, and forms of expressions without symbols have none. -/

namespace Discharge

theorem Poly.toExpr_constant (c : Rat) : (Poly.constant c).toExpr = .number c := by
  unfold Poly.constant Poly.term
  split
  · rename_i zero
    rw [Poly.zero, Poly.toExpr, termsToExprs, zero]
    rfl
  · rw [Poly.toExpr, termsToExprs, termsToExprs, factorsToExprs, Poly.zero, exponentialToExprs]
    simp [Expr.ofTerms, Expr.ofTerm, Expr.ofFactors]

/-! ## Radicals that are not split -/

namespace Radical

/-- The radicals of the system that are not split. -/
def whole (R : Set (ℕ × ℕ)) : Set (ℕ × ℕ) := { b ∈ R | integerRoot b.1 b.2 = (1, [b.1]) }

variable {R : Set (ℕ × ℕ)} {S : Set String}

theorem within_of_eq {n k : ℕ} (member : (n, k) ∈ R) (unsplit : integerRoot n k = (1, [n])) :
    Within R (n : ℕ) k := by
  have radicand : (n : ℚ).num.natAbs * Nat.pow (n : ℚ).den (k - 1) = n := by simp
  intro p left
  rw [radicand, unsplit, List.mem_singleton] at left
  rwa [left]

theorem within_whole {b : ℕ × ℕ} (member : b ∈ whole R) : Within (whole R) (b.1 : ℕ) b.2 :=
  within_of_eq member member.2

theorem within_prime {p k : ℕ} (prime : p.Prime) (proper : 2 ≤ k) (member : (p, k) ∈ R) :
    Within R (p : ℕ) k :=
  within_of_eq member (integerRoot_of_prime prime proper)

/-- Roots are split into radicals that are not split again. -/
theorem Within.whole {c : ℚ} {k : ℕ} (within : Within R c k) (positive : 0 < c) (proper : 2 ≤ k) :
    Within (whole R) c k := fun n member =>
  ⟨within n member, integerRoot_radicand proper (radicand_pos positive k) n member⟩

end Radical

theorem Expr.IsRadical.whole {R : Set (ℕ × ℕ)} {S : Set String} {e : Expr} (inside : e.IsRadical R S) :
    e.IsRadical (Radical.whole R) S := by
  induction inside with
  | number q => exact .number q
  | symbol inside => exact .symbol inside
  | sum _ ih => exact .sum ih
  | product _ ih => exact .product ih
  | power n _ ih => exact .power n ih
  | sqrt positive within => exact .sqrt positive (within.whole positive le_rfl)
  | @root c q positive proper within =>
    have := q.den_pos
    exact .root positive proper (within.whole positive (by omega))

namespace RealFunction

variable {R : Set (ℕ × ℕ)} {S : Set String} {r : Fraction} {p : Poly} {x : RealFunction}

/-! ## Trees -/

section Tree

variable (system : Radical.Independent R) (stable : ∀ b ∈ R, Radical.Within R (b.1 : ℕ) b.2)

include system stable

theorem atom_tree {a : Atom} (known : Known R S a) :
    a.toExpr.IsRadical R S ∧ a.toExpr.value interpretation = (valuation R S).atom a := by
  rcases known with ⟨s, inside, rfl⟩ | ⟨b, member, -, rfl⟩
  · rw [Atom.toExpr]
    exact ⟨.symbol inside, Expr.value_symbol _ s⟩
  have positive : (0 : ℚ) < (b.1 : ℕ) := Nat.cast_pos.mpr (system.positive b member)
  have proper := system.proper b member
  have within := stable b member
  have value : (valuation R S).atom (.root (.constant (b.1 : ℕ)) b.2) =
      algebraMap ℝ RealFunction (((b.1 : ℕ) : ℝ) ^ (1 / b.2 : ℝ)) := rootValue_constant b
  rw [Atom.toExpr, Poly.toExpr_constant, value]
  split
  · rename_i two
    rw [two] at within ⊢
    refine ⟨.sqrt positive within, ?_⟩
    rw [Expr.value_apply, Expr.value_number, sqrt_rat, Real.sqrt_eq_rpow, Rat.cast_natCast]
    rfl
  · have index : (mkRat 1 b.2).den = b.2 := by
      rw [Rat.mkRat_eq_div, Int.cast_one, one_div, Rat.inv_natCast_den_of_pos (by omega)]
    have improper : (mkRat 1 b.2).den ≠ 1 := by omega
    refine ⟨.root positive improper (by rwa [index]), ?_⟩
    rw [Expr.value_power, Expr.value_number, Expr.value_number, pow_rat improper, Rat.mkRat_eq_div]
    push_cast
    rfl

theorem factors_tree {fs : List (Atom × Int)} (each : ∀ f ∈ fs, (valuation R S).AdmitsFactor f) :
    (∀ x ∈ factorsToExprs fs, x.IsRadical R S) ∧
      (Expr.values interpretation (factorsToExprs fs)).prod = (valuation R S).factors fs := by
  induction fs with
  | nil =>
    rw [factorsToExprs]
    exact ⟨fun _ member => absurd member List.not_mem_nil, by simp⟩
  | cons f fs ih =>
    obtain ⟨a, n⟩ := f
    obtain ⟨head, tail⟩ := List.forall_mem_cons.mp each
    obtain ⟨inside, value⟩ := atom_tree system stable head.known
    obtain ⟨rest, product⟩ := ih tail
    have raised : (a.toExpr.raised n).IsRadical R S := by
      unfold Expr.raised
      split
      · exact inside
      · exact .power n inside
    rw [factorsToExprs]
    refine ⟨List.forall_mem_cons.mpr ⟨raised, rest⟩, ?_⟩
    rw [Expr.values_cons, List.prod_cons, Expr.value_raised pow_int, value, product,
      Valuation.factors_cons, intPower_eq_zpow]

theorem terms_tree {ts : List (Monomial × Rat)} (each : ∀ t ∈ ts, (valuation R S).Admits t.1) :
    (∀ x ∈ termsToExprs ts, x.IsRadical R S) ∧
      (Expr.values interpretation (termsToExprs ts)).sum = (valuation R S).terms ts := by
  induction ts with
  | nil =>
    rw [termsToExprs]
    exact ⟨fun _ member => absurd member List.not_mem_nil, by simp⟩
  | cons t ts ih =>
    obtain ⟨⟨fs, e⟩, c⟩ := t
    obtain ⟨head, tail⟩ := List.forall_mem_cons.mp each
    obtain ⟨factors, product⟩ := factors_tree system stable head.factor
    obtain ⟨rest, total⟩ := ih tail
    obtain rfl : e = .zero := head.turning.resolve_right id
    have none : exponentialToExprs .zero = [] := by rw [Poly.zero, exponentialToExprs]
    rw [termsToExprs, none]
    refine ⟨List.forall_mem_cons.mpr ⟨?_, rest⟩, ?_⟩
    · exact (Expr.IsRadical.closed R S).ofTerm c factors fun _ member =>
        absurd member List.not_mem_nil
    · rw [Expr.values_cons, List.sum_cons, Expr.value_ofTerm, product, total, Valuation.terms_cons,
        Valuation.monomial_eq, eq_ratCast]
      rfl

theorem poly_tree (admitted : (valuation R S).AdmitsPoly p) :
    p.toExpr.IsRadical R S ∧ p.toExpr.value interpretation = (valuation R S).poly p := by
  obtain ⟨terms, total⟩ := terms_tree system stable admitted.all
  obtain ⟨ts⟩ := p
  rw [Poly.toExpr, Expr.value_ofTerms, total, Valuation.poly_eq]
  exact ⟨(Expr.IsRadical.closed R S).ofTerms terms, rfl⟩

/-- The tree of an exact canonical form has its value. -/
theorem fraction_tree (denotes : (valuation R S).Denotes r x) :
    r.toExpr.IsRadical R S ∧ r.toExpr.value interpretation = x := by
  have value := denotes.eq_div
  obtain ⟨num, den⟩ := r
  obtain ⟨above, top⟩ := poly_tree system stable denotes.num
  obtain ⟨below, bottom⟩ := poly_tree system stable denotes.den
  rw [Fraction.toExpr]
  split
  · rename_i one
    have unit : (valuation R S).poly den = 1 := by
      rw [Valuation.poly_of_constant _ (beq_iff_eq.mp one), map_one]
    refine ⟨above, ?_⟩
    rw [top, value]
    dsimp only
    rw [unit, div_one]
  · refine ⟨(Expr.IsRadical.closed R S).overDenominator above (.power (-1) below), ?_⟩
    rw [Expr.value_overDenominator pow_int, top, bottom, value]

end Tree

/-! ## Constants -/

theorem factors_constant {fs : List (Atom × Int)} (each : ∀ f ∈ fs, (valuation R S).AdmitsFactor f)
    (free : factorsHaveSymbols fs = false) :
    (valuation R S).factors fs ∈ (algebraMap ℝ RealFunction).fieldRange := by
  induction fs with
  | nil => exact one_mem _
  | cons f fs ih =>
    obtain ⟨a, n⟩ := f
    obtain ⟨head, tail⟩ := List.forall_mem_cons.mp each
    rw [factorsHaveSymbols, Bool.or_eq_false_iff] at free
    rw [Valuation.factors_cons, intPower_eq_zpow]
    refine mul_mem (zpow_mem ?_ n) (ih tail free.2)
    rcases head.known with ⟨s, -, rfl⟩ | ⟨b, -, -, rfl⟩
    · rw [Atom.hasSymbols] at free
      cases free.1
    · exact ⟨_, rfl⟩

theorem terms_constant {ts : List (Monomial × Rat)} (each : ∀ t ∈ ts, (valuation R S).Admits t.1)
    (free : termsHaveSymbols ts = false) :
    (valuation R S).terms ts ∈ (algebraMap ℝ RealFunction).fieldRange := by
  induction ts with
  | nil =>
    rw [Valuation.terms_nil]
    exact zero_mem _
  | cons t ts ih =>
    obtain ⟨⟨fs, e⟩, c⟩ := t
    obtain ⟨head, tail⟩ := List.forall_mem_cons.mp each
    rw [termsHaveSymbols, Monomial.hasSymbols, Bool.or_eq_false_iff, Bool.or_eq_false_iff] at free
    rw [Valuation.terms_cons, Valuation.monomial_eq, algebraMap_rat]
    have factors := factors_constant head.factor free.1.1
    exact add_mem (mul_mem ⟨c, rfl⟩ (mul_mem factors (one_mem _))) (ih tail free.2)

/-- Without symbols the value is a real number. -/
theorem fraction_constant (denotes : (valuation R S).Denotes r x) (free : r.hasSymbols = false) :
    ∃ y : ℝ, x = algebraMap ℝ RealFunction y := by
  have value := denotes.eq_div
  obtain ⟨⟨ts⟩, ⟨us⟩⟩ := r
  rw [Fraction.hasSymbols, Bool.or_eq_false_iff, Poly.hasSymbols, Poly.hasSymbols] at free
  have top := terms_constant denotes.num.all free.1
  have bottom := terms_constant denotes.den.all free.2
  obtain ⟨y, quotient⟩ := div_mem top bottom
  refine ⟨y, ?_⟩
  rw [value, quotient, Valuation.poly_eq, Valuation.poly_eq]

/-! ## Forms without symbols -/

theorem factors_free {fs : List (Atom × Int)} (each : ∀ f ∈ fs, (valuation R ∅).AdmitsFactor f) :
    factorsHaveSymbols fs = false := by
  induction fs with
  | nil => rw [factorsHaveSymbols]
  | cons f fs ih =>
    obtain ⟨a, n⟩ := f
    obtain ⟨head, tail⟩ := List.forall_mem_cons.mp each
    rw [factorsHaveSymbols, ih tail, Bool.or_false]
    rcases head.known with ⟨s, impossible, -⟩ | ⟨b, -, -, rfl⟩
    · exact impossible.elim
    · rw [Atom.hasSymbols, Poly.hasSymbols_constant]

theorem terms_free {ts : List (Monomial × Rat)} (each : ∀ t ∈ ts, (valuation R ∅).Admits t.1) :
    termsHaveSymbols ts = false := by
  induction ts with
  | nil => rw [termsHaveSymbols]
  | cons t ts ih =>
    obtain ⟨⟨fs, e⟩, c⟩ := t
    obtain ⟨head, tail⟩ := List.forall_mem_cons.mp each
    obtain rfl : e = .zero := head.turning.resolve_right id
    rw [termsHaveSymbols, Monomial.hasSymbols, factors_free head.factor, ih tail, Poly.zero,
      Poly.hasSymbols, termsHaveSymbols]
    rfl

/-- Where no symbols may occur, none do. -/
theorem fraction_free (denotes : (valuation R ∅).Denotes r x) : r.hasSymbols = false := by
  obtain ⟨⟨ts⟩, ⟨us⟩⟩ := r
  rw [Fraction.hasSymbols, Poly.hasSymbols, Poly.hasSymbols, terms_free denotes.num.all,
    terms_free denotes.den.all]
  rfl

end RealFunction

end Discharge
