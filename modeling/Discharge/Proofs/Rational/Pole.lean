import Mathlib

/-! Rational functions of one variable at a point: poles, values, and the rule
of L'Hôpital. Where numerator and denominator both vanish, the quotient of their
derivatives has a pole exactly if theirs has, and otherwise the same value. -/

namespace Discharge.Univariate

open Polynomial

variable {K : Type*} [Field K] {N D : K[X]} {a : K}

/-- The reduced denominator vanishes at the point. -/
def HasPole (f : RatFunc K) (a : K) : Prop := f.denom.IsRoot a

/-- The value of the reduced fraction at the point. -/
noncomputable def valueAt (f : RatFunc K) (a : K) : K := f.num.eval a / f.denom.eval a

/-- The quotient of two polynomials. -/
noncomputable def quotient (N D : K[X]) : RatFunc K :=
  algebraMap K[X] (RatFunc K) N / algebraMap K[X] (RatFunc K) D

theorem algebraMap_ne_zero (regular : D ≠ 0) : algebraMap K[X] (RatFunc K) D ≠ 0 :=
  (map_ne_zero_iff _ (RatFunc.algebraMap_injective K)).mpr regular

/-- A quotient and its reduced fraction, multiplied out. -/
theorem num_mul_eval (regular : D ≠ 0) (a : K) :
    (quotient N D).num.eval a * D.eval a = N.eval a * (quotient N D).denom.eval a := by
  have crossed := (RatFunc.num_mul_eq_mul_denom_iff (x := quotient N D) regular).mpr rfl
  rw [← eval_mul, ← eval_mul, crossed]

theorem quotient_regular (bottom : D.eval a ≠ 0) :
    ¬ HasPole (quotient N D) a ∧ valueAt (quotient N D) a = N.eval a / D.eval a := by
  have regular : D ≠ 0 := by
    rintro rfl
    exact bottom eval_zero
  have divides : (quotient N D).denom ∣ D := RatFunc.denom_div_dvd N D
  have proper : (quotient N D).denom.eval a ≠ 0 := by
    obtain ⟨E, product⟩ := divides
    rw [product, eval_mul] at bottom
    exact left_ne_zero_of_mul bottom
  refine ⟨proper, ?_⟩
  rw [valueAt, div_eq_div_iff proper bottom, num_mul_eval regular]

theorem quotient_pole (regular : D ≠ 0) (top : N.eval a ≠ 0) (bottom : D.eval a = 0) :
    HasPole (quotient N D) a := by
  have product := num_mul_eval (N := N) regular a
  rw [bottom, mul_zero] at product
  exact (mul_eq_zero.mp product.symm).resolve_left top

theorem quotient_C (c a : K) : ¬ HasPole (RatFunc.C c) a ∧ valueAt (RatFunc.C c) a = c := by
  simp [HasPole, valueAt]

/-- A common factor of both sides does not matter. -/
theorem quotient_mul_left {P : K[X]} (regular : P ≠ 0) : quotient (P * N) (P * D) = quotient N D := by
  rw [quotient, map_mul, map_mul, mul_div_mul_left _ _ (algebraMap_ne_zero regular)]
  rfl

/-- A quotient split at a point: it has a pole exactly if the denominator
vanishes to the higher order. -/
theorem quotient_split {P Q : K[X]} (m n : ℕ) (top : P.eval a ≠ 0) (bottom : Q.eval a ≠ 0) :
    (HasPole (quotient ((X - C a) ^ m * P) ((X - C a) ^ n * Q)) a ↔ m < n) ∧
      (n ≤ m → valueAt (quotient ((X - C a) ^ m * P) ((X - C a) ^ n * Q)) a =
        0 ^ (m - n) * (P.eval a / Q.eval a)) := by
  have linear : ∀ k : ℕ, (X - C a : K[X]) ^ k ≠ 0 := fun k => pow_ne_zero k (X_sub_C_ne_zero a)
  rcases le_or_gt n m with more | less
  · obtain ⟨k, rfl⟩ := Nat.exists_eq_add_of_le more
    obtain ⟨proper, value⟩ := quotient_regular (N := (X - C a) ^ k * P) bottom
    rw [pow_add, mul_assoc, quotient_mul_left (linear n)]
    refine ⟨iff_of_false proper (by omega), fun _ => ?_⟩
    rw [value, eval_mul, eval_pow, eval_sub, eval_X, eval_C, sub_self, mul_div_assoc,
      Nat.add_sub_cancel_left]
  · obtain ⟨k, rfl⟩ := Nat.exists_eq_add_of_lt less
    have regular : (X - C a) ^ (k + 1) * Q ≠ 0 := by
      refine mul_ne_zero (linear _) fun zero => bottom ?_
      rw [zero, eval_zero]
    have pole : HasPole (quotient P ((X - C a) ^ (k + 1) * Q)) a :=
      quotient_pole regular top (by simp)
    rw [add_assoc, pow_add, mul_assoc, quotient_mul_left (linear m)]
    exact ⟨iff_of_true pole (by omega), fun more => absurd more (by omega)⟩

/-! ## The rule of L'Hôpital -/

/-- A polynomial other than zero, split at a point. -/
theorem exists_split (nonzero : N ≠ 0) (a : K) :
    ∃ P : K[X], N = (X - C a) ^ N.rootMultiplicity a * P ∧ P.eval a ≠ 0 := by
  obtain ⟨P, product, indivisible⟩ := exists_eq_pow_rootMultiplicity_mul_and_not_dvd N nonzero a
  exact ⟨P, product, fun root => indivisible (dvd_iff_isRoot.mpr root)⟩

/-- The derivative of a polynomial with a root, split at that root. -/
theorem derivative_split [CharZero K] (nonzero : N ≠ 0) (root : N.IsRoot a) :
    ∃ (n : ℕ) (P P' : K[X]), N = (X - C a) ^ (n + 1) * P ∧ derivative N = (X - C a) ^ n * P' ∧
      P.eval a ≠ 0 ∧ P'.eval a ≠ 0 ∧ P'.eval a = (n + 1) * P.eval a := by
  obtain ⟨P, product, outer⟩ := exists_split nonzero a
  obtain ⟨n, order⟩ := Nat.exists_eq_add_one.mpr ((rootMultiplicity_pos nonzero).mpr root)
  rw [order] at product
  have value : ((n + 1 : K[X]) * P + (X - C a) * derivative P).eval a = (n + 1) * P.eval a := by
    simp
  refine ⟨n, P, (n + 1 : K[X]) * P + (X - C a) * derivative P, product, ?_, outer, ?_, value⟩
  · rw [product, derivative_mul, derivative_X_sub_C_pow, Nat.add_sub_cancel]
    simp only [Nat.cast_add, Nat.cast_one, map_add, map_one, map_natCast]
    ring
  · rw [value]
    exact mul_ne_zero (by exact_mod_cast n.succ_ne_zero) outer

/-- Where both sides vanish, the quotient of the derivatives has a pole exactly
if the quotient has, and otherwise the same value. -/
theorem lhopital [CharZero K] (top : N.IsRoot a) (bottom : D.IsRoot a) (regular : D ≠ 0) :
    (HasPole (quotient N D) a ↔ HasPole (quotient (derivative N) (derivative D)) a) ∧
      (¬ HasPole (quotient N D) a →
        valueAt (quotient N D) a = valueAt (quotient (derivative N) (derivative D)) a) := by
  by_cases zero : N = 0
  · simp [zero, quotient]
  obtain ⟨m, P, P', above, slope, outer, inner, ratio⟩ := derivative_split zero top
  obtain ⟨n, Q, Q', below, slope', outer', inner', ratio'⟩ := derivative_split regular bottom
  obtain ⟨pole, value⟩ := quotient_split (m + 1) (n + 1) outer outer'
  obtain ⟨pole', value'⟩ := quotient_split m n inner inner'
  rw [slope, slope', above, below, pole, pole']
  refine ⟨by omega, fun proper => ?_⟩
  rw [value (by omega), value' (by omega), ratio, ratio']
  rcases Nat.eq_or_lt_of_le (show n ≤ m by omega) with rfl | more
  · rw [mul_div_mul_left _ _ (by exact_mod_cast n.succ_ne_zero), Nat.sub_self, Nat.sub_self]
  · rw [zero_pow (by omega), zero_pow (by omega), zero_mul, zero_mul]

end Discharge.Univariate
