import Mathlib.Algebra.Algebra.Basic
import Mathlib.Algebra.Algebra.Rat
import Mathlib.Algebra.GroupWithZero.Invertible
import Mathlib.Tactic.LinearCombination
import Mathlib.Tactic.Ring
import Discharge.Proofs.Ensures
import Discharge.Proofs.Normal.Terms

/-! Values of polynomials in a commutative algebra over the rationals.

A valuation gives every atom a value and turns exponents into values by a map
that takes sums to products. Addition and rational multiples of polynomials
are those of their values, whatever the terms are. Negative powers use the
inverse where the value is a unit, so that the same values serve fields, where
a symbol may be zero, and algebras in which all atoms are invertible. -/

namespace Discharge

/-! ## Refusals -/

namespace Failure

/-- A refusal, unless zero is one in `A`: then anything may have been divided by. -/
def IsRefusalIn (A : Type*) (f : Failure) : Prop := Nontrivial A → f.IsRefusal

theorem IsTooLarge.isRefusalIn {f : Failure} (A : Type*) (large : f.IsTooLarge) :
    f.IsRefusalIn A := fun _ => large.isRefusal

end Failure

theorem Ensures.isRefusal {A : Type*} [Nontrivial A] {α : Type} {x : Outcome α} {good : α → Prop}
    (ensured : Ensures x good (Failure.IsRefusalIn A)) : Ensures x good Failure.IsRefusal :=
  ensured.mono_error fun _ refused => refused inferInstance

/-! ## Integer powers -/

section IntPower

variable {A : Type*} [CommRing A] {x : A} {m n : Int}

/-- An integer power; a negative one is a power of the inverse, or of zero when
there is none. -/
noncomputable def intPower (x : A) (n : Int) : A :=
  if 0 ≤ n then x ^ n.toNat else Ring.inverse x ^ n.natAbs

theorem intPower_of_nonneg (h : 0 ≤ n) : intPower x n = x ^ n.toNat := if_pos h

@[simp] theorem intPower_zero (x : A) : intPower x 0 = 1 := by simp [intPower]

@[simp] theorem intPower_one (x : A) : intPower x 1 = x := by simp [intPower]

/-- On units, integer powers are those of the group of units. -/
theorem intPower_unit (u : Aˣ) (n : Int) : intPower (u : A) n = ((u ^ n : Aˣ) : A) := by
  unfold intPower
  split
  · obtain ⟨k, rfl⟩ := Int.eq_ofNat_of_zero_le ‹_›
    simp
  · obtain ⟨k, rfl⟩ := Int.eq_negSucc_of_lt_zero (not_le.mp ‹_›)
    simp [Int.natAbs_negSucc, zpow_negSucc]

@[simp] theorem one_intPower (n : Int) : intPower (1 : A) n = 1 := by
  simpa using intPower_unit (1 : Aˣ) n

/-- Exponents add where the value is a unit or no exponent is negative. -/
theorem intPower_add (regular : m < 0 ∨ n < 0 → IsUnit x) :
    intPower x (m + n) = intPower x m * intPower x n := by
  by_cases negative : m < 0 ∨ n < 0
  · obtain ⟨u, rfl⟩ := regular negative
    simp [intPower_unit, zpow_add]
  · have hm : 0 ≤ m := by omega
    have hn : 0 ≤ n := by omega
    rw [intPower_of_nonneg hm, intPower_of_nonneg hn, intPower_of_nonneg (by omega),
      Int.toNat_add hm hn, pow_add]

theorem intPower_mul (k : Nat) (regular : n < 0 → IsUnit x) :
    intPower x (k * n) = intPower (x ^ k) n := by
  by_cases negative : n < 0
  · obtain ⟨u, rfl⟩ := regular negative
    rw [← Units.val_pow_eq_pow_val, intPower_unit, intPower_unit, zpow_mul, zpow_natCast]
  · have hn : 0 ≤ n := by omega
    obtain ⟨l, rfl⟩ := Int.eq_ofNat_of_zero_le hn
    rw [← Int.natCast_mul, intPower_of_nonneg (Int.natCast_nonneg _), intPower_of_nonneg hn,
      Int.toNat_natCast, Int.toNat_natCast, pow_mul]

/-- A remainder by a natural number lies below it, unless that is zero. -/
theorem emod_bounds (n : Int) (k : Nat) : n % k = n ∨ 0 ≤ n % k ∧ n % k < k := by
  rcases Nat.eq_zero_or_pos k with rfl | positive
  · exact .inl (by simp)
  · exact .inr ⟨Int.emod_nonneg n (by omega), Int.emod_lt_of_pos n (by omega)⟩

theorem neg_of_ediv_neg {n : Int} {k : Nat} (negative : n / k < 0) : n < 0 := by
  by_contra nonneg
  exact absurd (Int.ediv_nonneg (not_lt.mp nonneg) (Int.natCast_nonneg k)) (not_le.mpr negative)

/-- A power of a root is a power of the radicand times what is left below the
index. -/
theorem intPower_root {x : A} (k : Nat) (regular : n < 0 → IsUnit x) :
    intPower x n = intPower (x ^ k) (n / k) * intPower x (n % k) := by
  have split : n = k * (n / k) + n % k := (Int.mul_ediv_add_emod n k).symm
  have bounds := emod_bounds n k
  have regular' : (k : Int) * (n / k) < 0 ∨ n % k < 0 → IsUnit x := by
    rintro (negative | negative)
    · exact regular (neg_of_ediv_neg (neg_of_mul_neg_right negative (Int.natCast_nonneg k)))
    · exact regular (by omega)
  calc intPower x n = intPower x (k * (n / k) + n % k) := by rw [← split]
    _ = intPower (x ^ k) (n / k) * intPower x (n % k) := by
        rw [intPower_add regular', intPower_mul k fun negative => regular (neg_of_ediv_neg negative)]

/-- The same for an exponent that has reached the index, with the division that
rounds towards zero. -/
theorem intPower_excess (x : A) (k : Nat) (reached : (k : Int) ≤ n) :
    intPower x n = (x ^ k) ^ (n.tdiv k).toNat * intPower x (n.tmod k) := by
  have nonneg : 0 ≤ n := le_trans (Int.natCast_nonneg k) reached
  rw [Int.tdiv_eq_ediv_of_nonneg nonneg, Int.tmod_eq_emod_of_nonneg nonneg,
    intPower_root k (by omega),
    intPower_of_nonneg (Int.ediv_nonneg nonneg (Int.natCast_nonneg k))]

theorem intPower_eq_zpow {K : Type*} [Field K] (x : K) (n : Int) : intPower x n = x ^ n := by
  unfold intPower
  split
  · obtain ⟨k, rfl⟩ := Int.eq_ofNat_of_zero_le ‹_›
    simp
  · obtain ⟨k, rfl⟩ := Int.eq_negSucc_of_lt_zero (not_le.mp ‹_›)
    simp [Int.natAbs_negSucc, zpow_negSucc]

variable [Algebra ℚ A]

theorem inverse_algebraMap (q : ℚ) : Ring.inverse (algebraMap ℚ A q) = algebraMap ℚ A q⁻¹ := by
  by_cases zero : q = 0
  · simp [zero]
  · have product : algebraMap ℚ A q * algebraMap ℚ A q⁻¹ = 1 := by
      rw [← map_mul, mul_inv_cancel₀ zero, map_one]
    exact Ring.inverse_unit (Units.mkOfMulEqOne _ _ product)

/-- The powers of a rational have the integer powers of its value as values. -/
theorem algebraMap_zpow (q : ℚ) (n : Int) :
    algebraMap ℚ A (q ^ n) = intPower (algebraMap ℚ A q) n := by
  unfold intPower
  split
  · obtain ⟨k, rfl⟩ := Int.eq_ofNat_of_zero_le ‹_›
    simp
  · obtain ⟨k, rfl⟩ := Int.eq_negSucc_of_lt_zero (not_le.mp ‹_›)
    rw [inverse_algebraMap, Int.natAbs_negSucc, ← map_pow, inv_pow, zpow_negSucc]

@[simp] theorem ratPow_zero (q : ℚ) : ratPow q 0 = .ok 1 := by simp [ratPow, Rat.pow]

/-- Only a negative power of zero fails. -/
theorem ratPow_ensures (q : ℚ) (n : Int) :
    Ensures (ratPow q n) (· = q ^ n) fun _ => n < 0 ∧ q = 0 := by
  have cast : ∀ k : Nat, Rat.pow q k = q ^ k := fun _ => rfl
  unfold ratPow
  split
  · obtain ⟨k, rfl⟩ := Int.eq_ofNat_of_zero_le ‹_›
    change Rat.pow q k = q ^ (k : Int)
    rw [cast, zpow_natCast]
  split
  · exact ⟨not_le.mp ‹_›, ‹_›⟩
  · obtain ⟨k, rfl⟩ := Int.eq_negSucc_of_lt_zero (not_le.mp ‹_›)
    change (Rat.pow q (k + 1))⁻¹ = q ^ Int.negSucc k
    rw [cast, zpow_negSucc]

end IntPower

/-! ## Valuations -/

/-- Values for the atoms and for exponentials, and the atoms whose values are
under the laws of the normal form. -/
structure Valuation (A : Type*) [CommRing A] [Algebra ℚ A] where
  atom : Atom → A
  exp : A → A
  exp_zero : exp 0 = 1
  exp_add : ∀ a b, exp (a + b) = exp a * exp b
  /-- The atoms that may occur. -/
  known : Atom → Prop
  /-- The atoms that may be divided by. -/
  invertible : Atom → Prop
  isUnit : ∀ a, invertible a → IsUnit (atom a)
  /-- May exponentials occur?  Then those of exact angles have exact values. -/
  turning : Prop
  /-- The monomials that may occur in exponents. -/
  inner : Monomial → Prop := fun _ => True

namespace Valuation

variable {A : Type*} [CommRing A] [Algebra ℚ A] (v : Valuation A)

/-- The value of a product of powers of atoms. -/
noncomputable def factors : List (Atom × Int) → A
  | [] => 1
  | (a, n) :: fs => intPower (v.atom a) n * factors fs

mutual
/-- The value of a monomial. -/
noncomputable def monomial : Monomial → A
  | ⟨fs, e⟩ => v.factors fs * v.exp (poly e)

/-- The value of a polynomial. -/
noncomputable def poly : Poly → A
  | ⟨ts⟩ => terms ts

/-- The value of a list of terms. -/
noncomputable def terms : List (Monomial × Rat) → A
  | [] => 0
  | (m, c) :: ts => algebraMap ℚ A c * monomial m + terms ts
end

theorem monomial_eq (m : Monomial) : v.monomial m = v.factors m.factors * v.exp (v.poly m.exp) := by
  cases m
  rw [monomial]

theorem poly_eq (p : Poly) : v.poly p = v.terms p.terms := by
  cases p
  rw [poly]

@[simp] theorem factors_nil : v.factors [] = 1 := rfl

@[simp] theorem factors_cons (a : Atom) (n : Int) (fs : List (Atom × Int)) :
    v.factors ((a, n) :: fs) = intPower (v.atom a) n * v.factors fs := rfl

@[simp] theorem terms_nil : v.terms [] = 0 := by rw [terms]

@[simp] theorem terms_cons (m : Monomial) (c : Rat) (ts : List (Monomial × Rat)) :
    v.terms ((m, c) :: ts) = algebraMap ℚ A c * v.monomial m + v.terms ts := by rw [terms]

@[simp] theorem poly_zero : v.poly .zero = 0 := by simp [poly_eq, Poly.zero]

@[simp] theorem monomial_one : v.monomial .one = 1 := by
  simp [monomial_eq, Monomial.one, v.exp_zero]

@[simp] theorem poly_term (m : Monomial) (c : Rat) :
    v.poly (.term m c) = algebraMap ℚ A c * v.monomial m := by
  unfold Poly.term
  split
  · simp [*]
  · simp [poly_eq]

@[simp] theorem poly_constant (c : Rat) : v.poly (.constant c) = algebraMap ℚ A c := by
  have one : v.monomial ⟨[], .zero⟩ = 1 := v.monomial_one
  simp [Poly.constant, one]

@[simp] theorem poly_one : v.poly .one = 1 := by simp [Poly.one]

@[simp] theorem poly_ofAtom (a : Atom) : v.poly (.ofAtom a) = v.atom a := by
  rw [Poly.ofAtom, poly_eq, terms_cons, monomial_eq]
  simp [v.exp_zero]

/-! ## Sums and rational multiples -/

theorem terms_mergeTerms (ts us : List (Monomial × Rat)) :
    v.terms (Poly.mergeTerms ts us) = v.terms ts + v.terms us := by
  induction ts, us using Poly.merge_induction with
  | left us => simp
  | right ts => simp
  | less m c ts n d us out order ih =>
    simp only [terms_cons, ih]
    ring
  | greater m c ts n d us out order ih =>
    simp only [terms_cons, ih]
    ring
  | cancel m c ts d us out zero ih =>
    have opposite : algebraMap ℚ A c + algebraMap ℚ A d = 0 := by rw [← map_add, zero, map_zero]
    simp only [terms_cons, ih]
    linear_combination -v.monomial m * opposite
  | both m c ts d us out nonzero ih =>
    simp only [terms_cons, ih, map_add]
    ring

@[simp] theorem poly_add (p q : Poly) : v.poly (p.add q) = v.poly p + v.poly q := by
  simp only [poly_eq, Poly.add, terms_mergeTerms]

theorem terms_map_coefficient (c : Rat) (ts : List (Monomial × Rat)) :
    v.terms (ts.map fun t => (t.1, t.2 * c)) = algebraMap ℚ A c * v.terms ts := by
  induction ts with
  | nil => simp
  | cons t ts ih =>
    obtain ⟨m, d⟩ := t
    simp only [List.map_cons, terms_cons, ih, map_mul]
    ring

@[simp] theorem poly_scale (p : Poly) (c : Rat) :
    v.poly (p.scale c) = algebraMap ℚ A c * v.poly p := by
  unfold Poly.scale
  split
  · simp [*]
  · simp only [poly_eq, terms_map_coefficient]

@[simp] theorem poly_neg (p : Poly) : v.poly p.neg = -v.poly p := by simp [Poly.neg]

theorem poly_sum (ps : List Poly) : v.poly (.sum ps) = (ps.map v.poly).sum :=
  Poly.sum_induction (motive := fun ps p => v.poly p = (ps.map v.poly).sum) (by simp)
    (fun p => by simp) (fun ps qs p q left right => by simp [left, right]) ps

/-- A polynomial without atoms and exponentials has its constant as value. -/
theorem poly_of_constant {p : Poly} {c : Rat} (constant : p.constant? = some c) :
    v.poly p = algebraMap ℚ A c := by
  unfold Poly.constant? at constant
  split at constant
  · cases constant
    simp [poly_eq, *]
  · cases constant
    have one : v.monomial ⟨[], ⟨[]⟩⟩ = 1 := v.monomial_one
    rw [poly_eq, ‹p.terms = _›, terms_cons, one, mul_one, terms_nil, add_zero]
  · cases constant

end Valuation

end Discharge
