import Mathlib
import Discharge.Oracle
import Discharge.Proofs.Differential.Antiderivative
import Discharge.Proofs.Numeric.Literal

/-! Intervals of integration with rational bounds. A bound is placed by its
approximate value, which has the right sign except that negative numbers too
small for a binary number are taken for positive ones. Away from those, an
integral over an interval is only answered where the antiderivative is valid. -/

namespace Discharge

open Binary64
open Antiderivative (logOf)

variable {q : ℚ} {x : String} {r : Fraction} {max : Nat}

/-! ## Bounds -/

theorem Fraction.isZero_constant (q : ℚ) : (Fraction.constant q).isZero = decide (q = 0) := by
  unfold Fraction.constant Fraction.isZero Fraction.ofPoly Poly.constant Poly.term
  split <;> simp [Poly.isZero, Poly.zero, *]

theorem Fraction.hasSymbols_constant (q : ℚ) : (Fraction.constant q).hasSymbols = false := by
  unfold Fraction.constant Fraction.ofPoly Poly.constant Poly.term
  split <;> rfl

theorem Approx.div?_one (q : ℚ) (moderate : |q| < overflow) :
    (Approx.real (approxOf q)).div? (.real 1) = some (.real (approxOf q)) := by
  have finite := magnitudeOf_lt_infinity_iff.mpr moderate
  have norm : (1 : Float) * 1 + 0 * 0 = 1 := by decide
  have proper : ((1 : Float) == 0) = false := by decide
  have square : (0 : Float) * 0 = signed .positive 0 := by decide
  have real : (approxOf q * 1 + 0 * 0) / 1 = approxOf q := by
    rw [square, signed_zero, approxOf, mul_one_signed _ finite, add_zero_signed _ finite,
      settledSign_settled, div_one_signed _ finite]
  have imaginary : ((0 : Float) * 1 - approxOf q * 0) / 1 = 0 := by
    rw [approxOf, mul_zero_signed _ finite]
    generalize settledSign (signOf q) (magnitudeOf q) = s
    cases s <;> decide
  unfold Approx.div? Approx.real
  dsimp only
  rw [norm, proper, real, imaginary]
  rfl

theorem Poly.approx?_one : Poly.one.approx? = some (.real 1) := by
  rw [Poly.one, Poly.approx?_constant one_ne_zero (by rw [abs_one]; exact one_lt_overflow)]
  have value : approxOf 1 = 1 := by decide
  rw [value]

theorem Fraction.approx?_constant (nonzero : q ≠ 0) (moderate : |q| < overflow) :
    (Fraction.constant q).approx? = some (.real (approxOf q)) := by
  rw [Fraction.constant, Fraction.ofPoly, Fraction.approx?, Poly.approx?_constant nonzero moderate,
    Poly.approx?_one]
  exact Approx.div?_one q moderate

theorem Fraction.approx?_constant_infinite (immoderate : overflow ≤ |q|) :
    (Fraction.constant q).approx?.filter Approx.isFinite = none := by
  rw [Fraction.constant, Fraction.ofPoly, Fraction.approx?,
    Poly.approx?_constant_infinite immoderate, Poly.approx?_one]
  change ((Approx.add .zero (Approx.one.scale (signed (signOf q) infinityBits))).div?
    (.real 1)).filter Approx.isFinite = none
  have undefined : ∀ s, (((Approx.add .zero (Approx.one.scale (signed s infinityBits))).div?
      (.real 1)).map Approx.isFinite) = some false := by
    intro s
    cases s <;> decide
  obtain ⟨value, found, infinite⟩ := Option.map_eq_some_iff.mp (undefined (signOf q))
  rw [found, Option.filter_some, infinite]
  rfl

/-- No imaginary part is negligible. -/
theorem negligible_zero (moderate : |q| < overflow) :
    ¬ (0 : Float).abs > 1e-12 * (if (approxOf q).abs < 1 then 1 else (approxOf q).abs) := by
  have finite := magnitudeOf_lt_infinity_iff.mpr moderate
  have zero : (0 : Float).abs = 0 := by decide
  have small : (1e-12 : Float) = signed .positive 4427486594234968593 := by decide
  have one : (1 : Float) = signed .positive (1023 * 2 ^ 52) := by decide
  rw [zero, small]
  split
  · rw [one]
    exact mul_not_negative (by decide) (by decide)
  · rw [approxOf, abs_signed _ finite]
    exact mul_not_negative (by decide) finite

/-- A bound that is a rational of moderate size. -/
theorem Interval.sideOfFinite_number (moderate : |q| < overflow) :
    Interval.sideOfFinite (.number q) max =
      .ok (if q = 0 then .origin else if q < -underflow then .negative else .positive) := by
  have normal : Fraction.ofExpr max (.number q) = .ok (.constant q) := by rw [Fraction.ofExpr]
  unfold Interval.sideOfFinite
  rw [normal]
  by_cases zero : q = 0
  · subst zero
    rfl
  · have proper : (Fraction.constant q).isZero = false := by
      rw [Fraction.isZero_constant, decide_eq_false_iff_not]
      exact zero
    simp only [bind, Except.bind, proper, Fraction.hasSymbols_constant,
      Fraction.approx?_constant zero moderate, Option.filter_some, Approx.isFinite_real moderate]
    simp only [Approx.real, Bool.false_eq_true, if_false, if_true]
    rw [if_neg (negligible_zero moderate)]
    simp only [zero, if_false, approxOf_negative_iff moderate]
    rfl

/-- A bound that is too large is not placed. -/
theorem Interval.sideOfFinite_immoderate (immoderate : overflow ≤ |q|) (side : Interval.Side) :
    Interval.sideOfFinite (.number q) max ≠ .ok side := by
  have normal : Fraction.ofExpr max (.number q) = .ok (.constant q) := by rw [Fraction.ofExpr]
  have zero : q ≠ 0 := by
    rintro rfl
    exact absurd immoderate (by norm_num [overflow])
  have proper : (Fraction.constant q).isZero = false := by
    rw [Fraction.isZero_constant, decide_eq_false_iff_not]
    exact zero
  unfold Interval.sideOfFinite
  rw [normal]
  simp only [bind, Except.bind, proper, Fraction.hasSymbols_constant,
    Fraction.approx?_constant_infinite immoderate]
  intro placed
  cases placed

/-! ## Intervals -/

/-- A rational that a binary number of the same sign is near to, or zero. -/
def Binary64.Placeable (q : ℚ) : Prop := q < -underflow ∨ 0 ≤ q

/-- A placed bound has the sign of its place. -/
theorem Interval.sideOf_number {side : Interval.Side} (placeable : Placeable q)
    (placed : Interval.sideOf (.finite (.number q)) max = .ok side) :
    (side = .origin ↔ q = 0) ∧ (side = .negative ↔ q < 0) ∧ (side = .positive ↔ 0 < q) := by
  have least : 0 < underflow := by norm_num [underflow]
  by_cases moderate : |q| < overflow
  · have found := (@Interval.sideOfFinite_number q max moderate).symm.trans placed
    cases found
    rcases placeable with below | nonneg
    · rw [if_neg (by linarith), if_pos below]
      exact ⟨by simp; linarith, by simp; linarith, by simp; linarith⟩
    · split_ifs with zero negative
      · simp [zero]
      · linarith
      · simp [zero, lt_of_le_of_ne nonneg (Ne.symm zero), nonneg]
  · exact absurd placed (Interval.sideOfFinite_immoderate (not_lt.mp moderate) side)

/-- An interval that is not refused has its bounds on one side of a pole, and none
on the negative side of a logarithm. -/
theorem Interval.check_sound {i : Interval} (accepted : i.check r x max = .ok ())
    (relevant : Interval.hasPole r x = true ∨ Interval.hasLogarithm r x = true) :
    ∃ lower upper, Interval.sideOf i.lower max = .ok lower ∧
      Interval.sideOf i.upper max = .ok upper ∧
      (Interval.hasPole r x = true → lower = upper ∧ lower ≠ .origin) ∧
      (Interval.hasLogarithm r x = true → lower ≠ .negative ∧ upper ≠ .negative) := by
  unfold Interval.check at accepted
  have checked : ¬ (!Interval.hasPole r x && !Interval.hasLogarithm r x) = true := by
    rcases relevant with found | found <;> simp [found]
  dsimp only at accepted
  rw [if_neg checked] at accepted
  obtain ⟨lower, placedLower, accepted⟩ := bind_eq_ok accepted
  obtain ⟨upper, placedUpper, accepted⟩ := bind_eq_ok accepted
  refine ⟨lower, upper, placedLower, placedUpper, ?_⟩
  split at accepted
  · cases accepted
  rename_i apart
  change (if _ then _ else _) = _ at accepted
  split at accepted
  · cases accepted
  rename_i real
  simp only [Bool.and_eq_true, Bool.or_eq_true, decide_eq_true_eq, not_and, not_or, ne_eq,
    not_not] at apart real
  exact ⟨apart, real⟩

/-! ## Integrals -/

theorem Interval.hasPole_of_mem {t : Monomial × Rat} (member : t ∈ r.num.terms)
    (negative : t.1.count (.symbol x) < 0) : Interval.hasPole r x = true := by
  refine List.any_eq_true.mpr ⟨t, member, ?_⟩
  rw [Valuation.count_split _ (by simp [Atom.mentions]), decide_eq_true_iff]
  exact negative

/-- A term with the reciprocal of the variable, or a power of its logarithm. -/
def LogarithmicIn (x : String) (m : Monomial) : Prop :=
  m.count (.symbol x) = -1 ∨ ∃ n, (logOf x, n) ∈ m.factors

theorem Interval.hasLogarithm_of_mem {t : Monomial × Rat} (member : t ∈ r.num.terms)
    (logarithmic : LogarithmicIn x t.1) : Interval.hasLogarithm r x = true := by
  refine List.any_eq_true.mpr ⟨t, member, ?_⟩
  dsimp only
  rw [Valuation.count_split _ (by simp [Atom.mentions]), Bool.or_eq_true]
  rcases logarithmic with reciprocal | ⟨n, factor⟩
  · exact .inl (by rw [reciprocal]; rfl)
  · refine .inr (List.any_eq_true.mpr ⟨(logOf x, n), ?_, by simp [logOf]⟩)
    rw [Valuation.split_eq]
    exact List.mem_filter.mpr ⟨factor, Valuation.mentions_logOf x⟩

/-- A term without the variable has no power of it. -/
theorem not_singular_of_unmentioned {p : Poly} (unmentioned : p.mentions x = false)
    {t : Monomial × Rat} (member : t ∈ p.terms) :
    t.1.count (.symbol x) = 0 ∧ ¬ LogarithmicIn x t.1 := by
  obtain ⟨ts⟩ := p
  obtain ⟨⟨fs, e⟩, c⟩ := t
  rw [Poly.mentions] at unmentioned
  have free : ∀ a n, (a, n) ∈ fs → a.mentions x = false := by
    intro a n factor
    have term := termsMention_eq_false_iff.mp unmentioned _ member
    rw [Monomial.mentions, Bool.or_eq_false_iff] at term
    exact factorsMention_eq_false_iff.mp term.1 (a, n) factor
  have power : (Monomial.mk fs e).count (.symbol x) = 0 := by
    by_contra present
    exact absurd (free _ _ (Monomial.mem_of_exponentIn present)) (by simp [Atom.mentions])
  refine ⟨power, ?_⟩
  rintro (reciprocal | ⟨n, factor⟩)
  · rw [power] at reciprocal
    cases reciprocal
  · exact absurd (free _ _ factor) (by simp [Valuation.mentions_logOf])

/-- An antiderivative has been found only where the denominator is constant. -/
theorem Fraction.den_unmentioned {primitive : Fraction}
    (found : r.antiderivative x max = .ok primitive) : r.den.mentions x = false := by
  unfold Fraction.antiderivative at found
  split at found
  · cases found
  · rename_i unmentioned
    exact Bool.eq_false_of_not_eq_true unmentioned

/-- What an answered integral over an interval has gone through. -/
theorem Oracle.integral_checked {guards : Guards} {e : Expr} {i : Interval} {value : Expr}
    (normal : Fraction.ofExpr guards.maxPower e = .ok r)
    (answered : Oracle.integral guards e x (some i) = .ok value) :
    r.den.mentions x = false ∧ i.check r x guards.maxPower = .ok () := by
  unfold Oracle.integral at answered
  rw [normal] at answered
  obtain ⟨primitive, found, answered⟩ := bind_eq_ok (x := r.antiderivative x guards.maxPower) answered
  refine ⟨Fraction.den_unmentioned found, ?_⟩
  cases checked : i.check r x guards.maxPower with
  | ok => rfl
  | error failure =>
    dsimp only at answered
    rw [checked] at answered
    cases answered

/-- An integral over an interval between rationals is answered only if no pole of
the integrand lies between them, and if a logarithm is real there. -/
theorem definite_integral_avoids_poles (guards : Guards) {e : Expr} {a b : ℚ} {value : Expr}
    (normal : Fraction.ofExpr guards.maxPower e = .ok r) (lower : Placeable a) (upper : Placeable b)
    (answered : (Oracle.exact guards).integrate e x (some ⟨.finite (.number a), .finite (.number b)⟩) =
      .ok value) :
    ((∃ t ∈ r.num.terms ++ r.den.terms, t.1.count (.symbol x) < 0) →
      a ≠ 0 ∧ b ≠ 0 ∧ (0 < a ↔ 0 < b)) ∧
    ((∃ t ∈ r.num.terms ++ r.den.terms, LogarithmicIn x t.1) → 0 ≤ a ∧ 0 ≤ b) := by
  obtain ⟨constant, accepted⟩ := Oracle.integral_checked normal answered
  constructor
  · rintro ⟨t, member, negative⟩
    have top : t ∈ r.num.terms := (List.mem_append.mp member).resolve_right fun inside => by
      rw [(not_singular_of_unmentioned constant inside).1] at negative
      cases negative
    have pole := Interval.hasPole_of_mem top negative
    obtain ⟨left, right, placedLeft, placedRight, sides, -⟩ :=
      Interval.check_sound accepted (.inl pole)
    obtain ⟨same, off⟩ := sides pole
    obtain ⟨originLeft, -, positiveLeft⟩ := Interval.sideOf_number lower placedLeft
    obtain ⟨originRight, -, positiveRight⟩ := Interval.sideOf_number upper placedRight
    refine ⟨mt originLeft.mpr off, mt originRight.mpr (same ▸ off), ?_⟩
    rw [← positiveLeft, ← positiveRight, same]
  · rintro ⟨t, member, logarithmic⟩
    have top : t ∈ r.num.terms := (List.mem_append.mp member).resolve_right fun inside =>
      (not_singular_of_unmentioned constant inside).2 logarithmic
    have logarithm := Interval.hasLogarithm_of_mem top logarithmic
    obtain ⟨left, right, placedLeft, placedRight, -, real⟩ :=
      Interval.check_sound accepted (.inr logarithm)
    obtain ⟨realLeft, realRight⟩ := real logarithm
    have leftSign := (Interval.sideOf_number lower placedLeft).2.1
    have rightSign := (Interval.sideOf_number upper placedRight).2.1
    exact ⟨not_lt.mp (mt leftSign.mpr realLeft), not_lt.mp (mt rightSign.mpr realRight)⟩

/-- `1 / x ^ 2`. -/
def inverseSquare : Expr := .power (.symbol "x") (.int (-2))

theorem definite_integral_avoids_poles_inverseSquare :
    (Oracle.exact {}).integrate inverseSquare "x" (some ⟨.finite (.number 1), .finite (.number 2)⟩) =
        .ok (.number (1 / 2)) ∧ (1 : ℚ) ≠ 0 ∧ (2 : ℚ) ≠ 0 ∧ ((0 : ℚ) < 1 ↔ (0 : ℚ) < 2) := by
  have normal : Fraction.ofExpr 64 inverseSquare = .ok (Antiderivative.powerOf "x" (-2)) := by
    decide +kernel
  have answered : (Oracle.exact {}).integrate inverseSquare "x"
      (some ⟨.finite (.number 1), .finite (.number 2)⟩) = .ok (.number (1 / 2)) := by
    decide +kernel
  refine ⟨answered, (definite_integral_avoids_poles {} normal (.inr zero_le_one) (.inr zero_le_two)
    answered).1 ⟨(.ofAtom (.symbol "x") (-2), 1), ?_, ?_⟩⟩
  · exact List.mem_append_left _ (by decide +kernel)
  · decide +kernel

/-- A negative bound that is too close to zero for a binary number. -/
def negligibleBound : ℚ := -1 / 10 ^ 400

/-- A negligible bound is placed on the wrong side of a pole, and the divergent
integral has a value. -/
theorem negligibleBound_crosses_pole :
    Fraction.ofExpr 64 inverseSquare = .ok (Antiderivative.powerOf "x" (-2)) ∧
      negligibleBound < 0 ∧
      (Oracle.exact {}).integrate inverseSquare "x"
        (some ⟨.finite (.number negligibleBound), .finite (.number 1)⟩) =
          .ok (.number (-1 - 10 ^ 400)) := by
  refine ⟨by decide +kernel, by decide +kernel, by decide +kernel⟩

end Discharge
