import Discharge.Calculus.Limit
import Discharge.Proofs.Numeric.Arithmetic

/-! The approximate value of a rational. It is the nearest binary number, except
that a zero has no sign; it is finite below the largest number and half a unit,
and zero up to half the smallest. -/

namespace Discharge

namespace Binary64

open Float.Model.UnpackedFloat

/-- The sign of a rational. -/
def signOf (q : ℚ) : Sign := if q < 0 then .negative else .positive

/-- The bits of the size of a rational. -/
def magnitudeOf (q : ℚ) : Nat := magnitudeBits q.num.natAbs q.den

variable {q : ℚ}

theorem ofRat_signed (q : ℚ) : ofRat q = signed (signOf q) (magnitudeOf q) := ofRat_eq q

theorem magnitudeOf_le (q : ℚ) : magnitudeOf q ≤ infinityBits := by
  unfold magnitudeOf magnitudeBits
  dsimp only
  split_ifs
  · exact Nat.zero_le _
  · exact le_rfl
  · exact min_le_right _ _

theorem abs_eq_div (q : ℚ) : |q| = (q.num.natAbs : ℚ) / q.den := by
  conv_lhs => rw [← Rat.num_div_den q]
  rw [abs_div, Nat.abs_cast, Nat.cast_natAbs, Int.cast_abs]

/-- A rational is rounded to more than given bits above the midpoint behind them. -/
theorem lt_magnitudeOf_iff (nonzero : q ≠ 0) {bits : Nat} (finite : bits < infinityBits) :
    bits < magnitudeOf q ↔ midpoint bits < |q| ∨ midpoint bits = |q| ∧ bits % 2 = 1 := by
  rw [abs_eq_div]
  exact lt_magnitudeBits_iff (by simpa [Int.natAbs_pos] using nonzero) q.den_pos finite

theorem magnitudeOf_zero : magnitudeOf 0 = 0 := rfl

/-- The least size that is rounded to infinity. -/
def overflow : ℚ := (2 ^ 54 - 1) * 2 ^ 970

theorem one_lt_overflow : 1 < overflow := by
  have power : (1 : ℚ) ≤ 2 ^ 970 := one_le_pow₀ (by norm_num)
  unfold overflow
  generalize (2 : ℚ) ^ 970 = p at power ⊢
  linarith

theorem midpoint_greatest : midpoint (infinityBits - 1) = overflow := by
  have parts : magnitudeParts (infinityBits - 1) = (2 ^ 53 - 1, 971) := by decide
  rw [midpoint, parts, overflow, show (971 - 1 : Int) = (970 : Nat) from rfl, zpow_natCast]
  norm_num

theorem magnitudeOf_lt_infinity_iff : magnitudeOf q < infinityBits ↔ |q| < overflow := by
  by_cases zero : q = 0
  · rw [zero, magnitudeOf_zero, abs_zero]
    exact iff_of_true (by decide) (by norm_num [overflow])
  · have reached := @lt_magnitudeOf_iff q zero (infinityBits - 1) (by decide)
    have odd : (infinityBits - 1) % 2 = 1 := by decide
    rw [midpoint_greatest, odd, eq_self_iff_true, and_true, ← le_iff_lt_or_eq] at reached
    have next : infinityBits - 1 < magnitudeOf q ↔ ¬ magnitudeOf q < infinityBits := by
      have positive : 0 < infinityBits := by decide
      omega
    exact not_iff_not.mp (by rw [← next, reached, not_lt])

/-- The greatest size that is rounded to zero. -/
def underflow : ℚ := 1 / 2 ^ 1075

theorem midpoint_zero : midpoint 0 = underflow := by
  have parts : magnitudeParts 0 = (0, -1074) := by decide
  rw [midpoint, parts, underflow, show (-1074 - 1 : Int) = -(1075 : Nat) from rfl, zpow_neg,
    zpow_natCast]
  norm_num

theorem magnitudeOf_eq_zero_iff : magnitudeOf q = 0 ↔ |q| ≤ underflow := by
  by_cases zero : q = 0
  · rw [zero, magnitudeOf_zero, abs_zero]
    exact iff_of_true rfl (by norm_num [underflow])
  · have above := @lt_magnitudeOf_iff q zero 0 (by decide)
    simp only [midpoint_zero, Nat.zero_mod, zero_ne_one, and_false, or_false] at above
    rw [← not_lt, ← above, Nat.pos_iff_ne_zero, not_not]

/-! ## Approximate values -/

/-- The approximate value of a rational: the nearest number, a zero having no sign. -/
def approxOf (q : ℚ) : Float := signed (settledSign (signOf q) (magnitudeOf q)) (magnitudeOf q)

theorem approxOf_negative_iff (moderate : |q| < overflow) : approxOf q < 0 ↔ q < -underflow := by
  have least : 0 < underflow := by norm_num [underflow]
  rw [approxOf, signed_lt_zero_iff _ (magnitudeOf_lt_infinity_iff.mpr moderate), ne_eq,
    magnitudeOf_eq_zero_iff, not_le, settledSign, lt_abs]
  unfold signOf
  constructor
  · rintro ⟨sign, large⟩
    split_ifs at sign
    rcases large with large | large <;> linarith
  · intro below
    have nonzero : magnitudeOf q ≠ 0 := by
      rw [ne_eq, magnitudeOf_eq_zero_iff, not_le, lt_abs]
      exact .inr (by linarith)
    rw [if_neg nonzero, if_pos (by linarith)]
    exact ⟨rfl, .inr (by linarith)⟩

theorem zero_lt_approxOf_iff (moderate : |q| < overflow) : 0 < approxOf q ↔ underflow < q := by
  have least : 0 < underflow := by norm_num [underflow]
  rw [approxOf, zero_lt_signed_iff _ (magnitudeOf_lt_infinity_iff.mpr moderate), ne_eq,
    magnitudeOf_eq_zero_iff, not_le, settledSign, lt_abs]
  unfold signOf
  constructor
  · rintro ⟨sign, large⟩
    split_ifs at sign with zero negative
    · rw [magnitudeOf_eq_zero_iff, abs_le] at zero
      rcases large with large | large <;> linarith
    · rcases large with large | large <;> linarith
  · intro above
    have nonzero : magnitudeOf q ≠ 0 := by
      rw [ne_eq, magnitudeOf_eq_zero_iff, not_le, lt_abs]
      exact .inl above
    rw [if_neg nonzero, if_neg (by linarith)]
    exact ⟨rfl, .inl above⟩

end Binary64

open Binary64

variable {q : ℚ}

theorem Poly.constant_of_ne_zero (nonzero : q ≠ 0) : Poly.constant q = ⟨[(.one, q)]⟩ :=
  if_neg nonzero

/-- The approximate value of a rational of moderate size. -/
theorem Poly.approx?_constant (nonzero : q ≠ 0) (moderate : |q| < overflow) :
    (Poly.constant q).approx? = some (.real (approxOf q)) := by
  have finite := magnitudeOf_lt_infinity_iff.mpr moderate
  have imaginary : (0 : Float) + 0 * signed (signOf q) (magnitudeOf q) = 0 := by
    rw [zero_mul_signed _ finite, zero_add_signed _ (by decide), settledSign, if_pos rfl,
      signed_zero]
  rw [Poly.constant_of_ne_zero nonzero]
  change some (Approx.mk (0 + 1 * ofRat q) (0 + 0 * ofRat q)) = _
  rw [ofRat_signed, one_mul_signed _ finite, zero_add_signed _ finite, imaginary]
  rfl

theorem Approx.isFinite_real (moderate : |q| < overflow) :
    (Approx.real (approxOf q)).isFinite = true := by
  have zero : (0 : Float).isFinite = true := by decide
  rw [Approx.isFinite, Approx.real, zero, Bool.and_true]
  exact isFinite_signed _ (magnitudeOf_lt_infinity_iff.mpr moderate)

/-- What is too large for a binary number is computed with as an infinite one. -/
theorem Poly.approx?_constant_infinite (immoderate : overflow ≤ |q|) :
    (Poly.constant q).approx? =
      some (.add .zero (Approx.one.scale (signed (signOf q) infinityBits))) := by
  have nonzero : q ≠ 0 := by
    rintro rfl
    exact absurd immoderate (by norm_num [overflow])
  have infinite : magnitudeOf q = infinityBits :=
    le_antisymm (magnitudeOf_le q) (Nat.le_of_not_lt fun finite =>
      absurd (magnitudeOf_lt_infinity_iff.mp finite) immoderate.not_gt)
  rw [Poly.constant_of_ne_zero nonzero]
  change some (Approx.add .zero (Approx.one.scale (ofRat q))) = _
  rw [ofRat_signed, infinite]

theorem Approx.isFinite_infinite (s : Float.Model.UnpackedFloat.Sign) :
    (Approx.add .zero (Approx.one.scale (signed s infinityBits))).isFinite = false := by
  cases s <;> decide

end Discharge
