import Mathlib

/-! Derivations of fields. A derivation of a ring goes on to its fractions, by the
rule for quotients; Laurent series are differentiated term by term in this way. -/

namespace Discharge

/-! ## Fields of characteristic zero -/

section Rational

variable {K : Type*} [Field K] [Algebra ℚ K] (d : Derivation ℚ K K)

theorem derivation_ratCast (q : ℚ) : d (q : K) = 0 := by
  rw [← eq_ratCast (algebraMap ℚ K) q, d.map_algebraMap]

theorem derivation_one_add (x : K) : d (1 + x) = d x := by
  rw [d.map_add, d.map_one_eq_zero, zero_add]

theorem derivation_algebraMap_mul (q : ℚ) (x : K) :
    d (algebraMap ℚ K q * x) = algebraMap ℚ K q * d x := by
  rw [d.leibniz, d.map_algebraMap, smul_zero, add_zero, smul_eq_mul]

theorem derivation_zpow (x : K) (n : ℤ) : d (x ^ n) = n * x ^ (n - 1) * d x := by
  by_cases zero : x = 0
  · subst zero
    rw [map_zero, mul_zero, zero_zpow_eq]
    split <;> simp
  · cases n with
    | ofNat n =>
      cases n with
      | zero => simp
      | succ n =>
        rw [Int.ofNat_eq_natCast, zpow_natCast, d.leibniz_pow, Nat.add_sub_cancel]
        push_cast
        rw [add_sub_cancel_right, zpow_natCast, nsmul_eq_mul, smul_eq_mul]
        push_cast
        ring
    | negSucc n =>
      rw [zpow_negSucc, d.leibniz_inv, d.leibniz_pow, Nat.add_sub_cancel, nsmul_eq_mul,
        smul_eq_mul, smul_eq_mul, Int.negSucc_eq, zpow_sub_one₀ zero, zpow_neg]
      norm_cast
      push_cast
      field_simp
      ring

end Rational

/-! ## Fractions -/

section Fractions

variable {R K : Type*} [CommRing R] [IsDomain R] [Field K] [Algebra R K] [IsFractionRing R K]

theorem exists_quotient (x : K) : ∃ a b : R, algebraMap R K b ≠ 0 ∧
    x * algebraMap R K b = algebraMap R K a := by
  obtain ⟨a, b, nonzero, rfl⟩ := IsFractionRing.div_surjective (A := R) x
  have proper : algebraMap R K b ≠ 0 := by
    rw [Ne, IsFractionRing.to_map_eq_zero_iff]
    exact nonZeroDivisors.ne_zero nonzero
  exact ⟨a, b, proper, div_mul_cancel₀ _ proper⟩

variable [Algebra ℚ R] (d : Derivation ℚ R R)

/-- The derivative of a quotient, for the quotient that was chosen. -/
noncomputable def fractionDerivative (x : K) : K :=
  let top := (IsLocalization.sec (nonZeroDivisors R) x).1
  let bottom : R := (IsLocalization.sec (nonZeroDivisors R) x).2
  (algebraMap R K (d top) - x * algebraMap R K (d bottom)) / algebraMap R K bottom

/-- Any way to write the quotient gives the same derivative. -/
theorem fractionDerivative_mul {x : K} {a b : R}
    (quotient : x * algebraMap R K b = algebraMap R K a) :
    fractionDerivative d x * algebraMap R K b =
      algebraMap R K (d a) - x * algebraMap R K (d b) := by
  have chosen := IsLocalization.sec_spec (nonZeroDivisors R) x
  have proper : algebraMap R K (IsLocalization.sec (nonZeroDivisors R) x).2 ≠ 0 := by
    rw [Ne, IsFractionRing.to_map_eq_zero_iff]
    exact nonZeroDivisors.ne_zero (IsLocalization.sec (nonZeroDivisors R) x).2.2
  unfold fractionDerivative
  generalize (IsLocalization.sec (nonZeroDivisors R) x).1 = top at *
  generalize ((IsLocalization.sec (nonZeroDivisors R) x).2 : R) = bottom at *
  have crossed : a * bottom = top * b := by
    apply IsFractionRing.injective R K
    rw [map_mul, map_mul, ← quotient, ← chosen]
    ring
  have derived := congrArg (fun r => algebraMap R K (d r)) crossed
  simp only [d.leibniz, smul_eq_mul, map_add, map_mul] at derived
  rw [div_mul_eq_mul_div, div_eq_iff proper]
  linear_combination (-1 : K) * derived + algebraMap R K (d b) * chosen -
    algebraMap R K (d bottom) * quotient

theorem fractionDerivative_add (x y : K) : fractionDerivative d (x + y) =
    fractionDerivative d x + fractionDerivative d y := by
  obtain ⟨a, b, proper, left⟩ := exists_quotient (R := R) x
  obtain ⟨p, q, proper', right⟩ := exists_quotient (R := R) y
  have both : (x + y) * algebraMap R K (b * q) = algebraMap R K (a * q + p * b) := by
    simp only [map_add, map_mul, ← left, ← right]
    ring
  have sum := fractionDerivative_mul d both
  have first := fractionDerivative_mul d left
  have second := fractionDerivative_mul d right
  simp only [d.leibniz, map_add, map_mul, smul_eq_mul] at sum
  refine mul_right_cancel₀ (mul_ne_zero proper proper') (sum.trans ?_)
  linear_combination -algebraMap R K q * first - algebraMap R K b * second -
    algebraMap R K (d q) * left - algebraMap R K (d b) * right

theorem fractionDerivative_leibniz (x y : K) : fractionDerivative d (x * y) =
    x * fractionDerivative d y + y * fractionDerivative d x := by
  obtain ⟨a, b, proper, left⟩ := exists_quotient (R := R) x
  obtain ⟨p, q, proper', right⟩ := exists_quotient (R := R) y
  have both : x * y * algebraMap R K (b * q) = algebraMap R K (a * p) := by
    simp only [map_mul, ← left, ← right]
    ring
  have product := fractionDerivative_mul d both
  have first := fractionDerivative_mul d left
  have second := fractionDerivative_mul d right
  simp only [d.leibniz, map_add, map_mul, smul_eq_mul] at product
  refine mul_right_cancel₀ (mul_ne_zero proper proper') (product.trans ?_)
  linear_combination -algebraMap R K q * y * first - algebraMap R K b * x * second -
    algebraMap R K (d p) * left - algebraMap R K (d a) * right

theorem fractionDerivative_algebraMap (a : R) :
    fractionDerivative d (algebraMap R K a) = algebraMap R K (d a) := by
  have whole : algebraMap R K a * algebraMap R K 1 = algebraMap R K a := by rw [map_one, mul_one]
  have derived := fractionDerivative_mul d whole
  rwa [map_one, mul_one, d.map_one_eq_zero, map_zero, mul_zero, sub_zero] at derived

variable [Algebra ℚ K]

/-- The derivation of the fractions that goes on from one of the ring. -/
noncomputable def fractionDerivation : Derivation ℚ K K :=
  let additive : K →+ K :=
    { toFun := fractionDerivative d
      map_zero' := by simpa using fractionDerivative_add d (0 : K) 0
      map_add' := fractionDerivative_add d }
  .mk' additive.toRatLinearMap (fractionDerivative_leibniz d)

theorem fractionDerivation_algebraMap (a : R) :
    fractionDerivation d (algebraMap R K a) = algebraMap R K (d a) :=
  fractionDerivative_algebraMap d a

end Fractions

/-! ## Laurent series -/

/-- Differentiation of Laurent series. -/
noncomputable def laurentDerivation :=
  fractionDerivation (K := LaurentSeries ℚ) (PowerSeries.derivative ℚ)

theorem laurentDerivation_coe (f : PowerSeries ℚ) :
    laurentDerivation (f : LaurentSeries ℚ) = (PowerSeries.derivative ℚ f : LaurentSeries ℚ) :=
  fractionDerivation_algebraMap (PowerSeries.derivative ℚ) f

/-- The exponential that counts the linear term alone: `exp(c·X)` for `c·X` and
whatever has no linear term besides. -/
noncomputable def laurentExp (a : LaurentSeries ℚ) : LaurentSeries ℚ :=
  (PowerSeries.rescale (a.coeff 1) (PowerSeries.exp ℚ) : PowerSeries ℚ)

theorem laurentExp_zero : laurentExp 0 = 1 := by
  rw [laurentExp, HahnSeries.coeff_zero, PowerSeries.rescale_zero]
  simp

theorem laurentExp_add (a b : LaurentSeries ℚ) :
    laurentExp (a + b) = laurentExp a * laurentExp b := by
  simp only [laurentExp]
  rw [HahnSeries.coeff_add, ← PowerSeries.coe_mul, PowerSeries.exp_mul_exp_eq_exp_add]

theorem laurentDerivation_exp (a : LaurentSeries ℚ) :
    laurentDerivation (laurentExp a) = laurentExp a * HahnSeries.C (a.coeff 1) := by
  have series : PowerSeries.derivative ℚ (PowerSeries.rescale (a.coeff 1) (PowerSeries.exp ℚ)) =
      PowerSeries.rescale (a.coeff 1) (PowerSeries.exp ℚ) * PowerSeries.C (a.coeff 1) := by
    ext n
    rw [PowerSeries.coeff_derivative, PowerSeries.coeff_mul_C, PowerSeries.coeff_rescale,
      PowerSeries.coeff_rescale, PowerSeries.coeff_exp, PowerSeries.coeff_exp, Nat.factorial_succ]
    simp
    field_simp
    exact pow_succ _ _
  rw [laurentExp, laurentDerivation_coe, series, PowerSeries.coe_mul, PowerSeries.coe_C]

/-- The variable of Laurent series. -/
noncomputable abbrev laurentX : LaurentSeries ℚ := (PowerSeries.X : PowerSeries ℚ)

theorem laurentDerivation_X : laurentDerivation laurentX = 1 := by
  rw [laurentDerivation_coe, PowerSeries.derivative_X, PowerSeries.coe_one]

theorem laurentX_linear : laurentX.coeff 1 = 1 :=
  (LaurentSeries.coeff_coe_powerSeries PowerSeries.X 1).trans PowerSeries.coeff_one_X

/-- The logarithm of `1 + X`. -/
noncomputable def laurentLog : LaurentSeries ℚ :=
  (PowerSeries.mk fun n : ℕ => (-1 : ℚ) ^ (n + 1) / n : PowerSeries ℚ)

theorem laurentDerivation_log : laurentDerivation laurentLog * (1 + laurentX) = 1 := by
  have series : PowerSeries.derivative ℚ (PowerSeries.mk fun n : ℕ => (-1 : ℚ) ^ (n + 1) / n) *
      (1 + PowerSeries.X) = 1 := by
    ext n
    rw [mul_add, mul_one, map_add]
    cases n with
    | zero => simp [PowerSeries.coeff_derivative]
    | succ n =>
      rw [PowerSeries.coeff_succ_mul_X, PowerSeries.coeff_derivative, PowerSeries.coeff_derivative,
        PowerSeries.coeff_mk, PowerSeries.coeff_mk, PowerSeries.coeff_one, if_neg (by omega)]
      push_cast
      field_simp
      ring
  rw [laurentLog, laurentDerivation_coe, ← PowerSeries.coe_one, ← PowerSeries.coe_add,
    ← PowerSeries.coe_mul, series]

end Discharge
