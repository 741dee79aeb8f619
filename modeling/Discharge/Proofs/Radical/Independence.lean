import Mathlib

/-! Linear independence of radicals. Positive reals with rational powers are
linearly independent over the rationals if no quotient of two of them is
rational: the trace of such a quotient is zero, since its minimal polynomial has
only two terms. A system of radicals in which no proper product is rational
therefore gives linearly independent products; roots of primes, each of one
index, are such a system. -/

namespace Discharge.Radical

open Polynomial IntermediateField

/-! ## Traces of radicals -/

variable {x : ℝ} {n : ℕ} {q : ℚ}

theorem isIntegral_of_power (proper : n ≠ 0) (power : x ^ n = q) : IsIntegral ℚ x :=
  ⟨X ^ n - C q, monic_X_pow_sub_C q proper, by simp [power]⟩

/-- All complex conjugates of a radical have the same absolute value. -/
theorem norm_conjugate (positive : 0 < x) (proper : n ≠ 0) (power : x ^ n = q) {z : ℂ}
    (conjugate : z ∈ ((minpoly ℚ x).map (algebraMap ℚ ℂ)).roots) : ‖z‖ = x := by
  have value : aeval z (minpoly ℚ x) = 0 := by
    rw [aeval_def, ← eval_map]
    exact isRoot_of_mem_roots conjugate
  have zero : aeval z (X ^ n - C q : ℚ[X]) = 0 := by
    obtain ⟨r, product⟩ : minpoly ℚ x ∣ X ^ n - C q := minpoly.dvd ℚ x (by simp [power])
    rw [product, map_mul, value, zero_mul]
  have equal : z ^ n = ((x ^ n : ℝ) : ℂ) := by
    have difference : z ^ n - (q : ℂ) = 0 := by simpa using zero
    rw [power, sub_eq_zero.mp difference]
    norm_cast
  have norms := congrArg norm equal
  rw [norm_pow, Complex.norm_real, norm_pow, Real.norm_of_nonneg positive.le] at norms
  exact (pow_left_inj₀ (norm_nonneg z) positive.le proper).mp norms

/-- The minimal polynomial of a radical has two terms. -/
theorem minpoly_eq (positive : 0 < x) (proper : n ≠ 0) (power : x ^ n = q) :
    ∃ c : ℚ, minpoly ℚ x = X ^ (minpoly ℚ x).natDegree - C c := by
  have integral := isIntegral_of_power proper power
  have monic := minpoly.monic integral
  have splits : ((minpoly ℚ x).map (algebraMap ℚ ℂ)).Splits := IsAlgClosed.splits _
  -- The constant coefficient is the product of the conjugates up to its sign.
  have constant : (|(minpoly ℚ x).coeff 0| : ℝ) = x ^ (minpoly ℚ x).natDegree := by
    have product := congrArg norm (splits.coeff_zero_eq_prod_roots_of_monic (monic.map _))
    rw [norm_mul, norm_pow, norm_neg, norm_one, one_pow, one_mul, coeff_map, eq_ratCast,
      Complex.norm_ratCast] at product
    rw [product]
    have conjugates : ∀ y ∈ ((minpoly ℚ x).map (algebraMap ℚ ℂ)).roots.map norm, y = x := by
      intro y member
      obtain ⟨z, conjugate, rfl⟩ := Multiset.mem_map.mp member
      exact norm_conjugate positive proper power conjugate
    have norms : ‖((minpoly ℚ x).map (algebraMap ℚ ℂ)).roots.prod‖ =
        (((minpoly ℚ x).map (algebraMap ℚ ℂ)).roots.map norm).prod :=
      map_multiset_prod (normHom : ℂ →*₀ ℝ) _
    rw [norms, Multiset.eq_replicate_card.mpr conjugates, Multiset.prod_replicate,
      Multiset.card_map, ← splits.natDegree_eq_card_roots, natDegree_map]
  refine ⟨|(minpoly ℚ x).coeff 0|, ?_⟩
  have degree : 0 < (minpoly ℚ x).natDegree := minpoly.natDegree_pos integral
  refine (minpoly.unique_of_degree_le_degree_minpoly ℚ x (monic_X_pow_sub_C _ degree.ne') ?_
    ?_).symm
  · simp [← constant]
  · rw [degree_X_pow_sub_C degree, degree_eq_natDegree monic.ne_zero]

/-- The trace of an irrational radical is zero. -/
theorem trace_eq_zero {L : IntermediateField ℚ ℝ} [FiniteDimensional ℚ L] {y : L}
    (positive : 0 < (y : ℝ)) (proper : n ≠ 0) (power : (y : ℝ) ^ n = q)
    (irrational : Irrational (y : ℝ)) : Algebra.trace ℚ L y = 0 := by
  have integral := isIntegral_of_power proper power
  have degree : 2 ≤ (minpoly ℚ (y : ℝ)).natDegree := by
    rw [minpoly.two_le_natDegree_iff integral]
    rintro ⟨c, rational⟩
    exact irrational ⟨c, rational⟩
  have same : minpoly ℚ y = minpoly ℚ (y : ℝ) :=
    (minpoly.algebraMap_eq (algebraMap L ℝ).injective y).symm
  obtain ⟨c, two⟩ := minpoly_eq positive proper power
  have next : (minpoly ℚ (y : ℝ)).nextCoeff = 0 := by
    rw [nextCoeff_of_natDegree_pos (by omega), two, natDegree_X_pow_sub_C, coeff_sub, coeff_X_pow,
      coeff_C, if_neg (by omega), if_neg (by omega), sub_zero]
  rw [trace_eq_finrank_mul_minpoly_nextCoeff, same, next, neg_zero, mul_zero]

/-! ## Independent reals -/

/-- Positive reals with rational powers and without rational quotients are
linearly independent. -/
theorem linearIndependent_of_irrational {ι : Type*} {b : ι → ℝ} (positive : ∀ i, 0 < b i)
    (power : ∀ i, ∃ n ≠ 0, ∃ q : ℚ, b i ^ n = q)
    (quotient : ∀ i j, i ≠ j → Irrational (b i / b j)) : LinearIndependent ℚ b := by
  rw [linearIndependent_iff']
  intro S g vanishes j member
  -- The quotients by one of the reals, and the field that they generate.
  let L := adjoin ℚ ((fun i => b i / b j) '' S)
  have radical : ∀ i, ∃ n ≠ 0, ∃ q : ℚ, (b i / b j) ^ n = q := by
    intro i
    obtain ⟨m, proper, p, left⟩ := power i
    obtain ⟨n, proper', q, right⟩ := power j
    refine ⟨m * n, mul_ne_zero proper proper', p ^ n / q ^ m, ?_⟩
    rw [div_pow, pow_mul, left, mul_comm m, pow_mul, right]
    push_cast
    rfl
  have finite : FiniteDimensional ℚ L := by
    refine finiteDimensional_adjoin fun y inside => ?_
    obtain ⟨i, -, rfl⟩ := inside
    obtain ⟨n, proper, q, value⟩ := radical i
    exact isIntegral_of_power proper value
  have inside : ∀ i ∈ S, b i / b j ∈ L := fun i chosen =>
    subset_adjoin ℚ _ ⟨i, chosen, rfl⟩
  let y : S → L := fun i => ⟨b i / b j, inside i i.2⟩
  have zero : ∑ i : S, g i • y i = 0 := by
    apply Subtype.val_injective
    have scaled : (∑ i ∈ S, g i • b i) / b j = 0 := by rw [vanishes, zero_div]
    rw [Finset.sum_div, ← Finset.sum_coe_sort] at scaled
    rw [AddSubmonoidClass.coe_finsetSum, ZeroMemClass.coe_zero, ← scaled]
    exact Finset.sum_congr rfl fun i _ => (smul_div_assoc (g i) (b i) (b j)).symm
  have trace := congrArg (Algebra.trace ℚ L) zero
  rw [map_sum, map_zero, Finset.sum_eq_single ⟨j, member⟩] at trace
  · have one : y ⟨j, member⟩ = 1 := Subtype.ext (div_self (positive j).ne')
    rw [one, map_smul, ← map_one (algebraMap ℚ L), Algebra.trace_algebraMap, smul_eq_zero] at trace
    refine trace.resolve_right ?_
    rw [nsmul_one]
    exact Nat.cast_ne_zero.mpr Module.finrank_pos.ne'
  · intro i _ other
    obtain ⟨n, proper, q, value⟩ := radical i
    rw [map_smul, trace_eq_zero (div_pos (positive i) (positive j)) proper value, smul_zero]
    exact quotient i j fun same => other (Subtype.ext same)
  · exact fun absent => absurd (Finset.mem_univ _) absent

/-! ## Systems of radicals -/

/-- The root that a radicand and an index stand for. -/
noncomputable def value (a : ℕ × ℕ) : ℝ := (a.1 : ℝ) ^ (1 / a.2 : ℝ)

/-- The product of integer powers of radicals. -/
noncomputable def product (e : ℕ × ℕ →₀ ℤ) : ℝ := e.prod fun a n => value a ^ n

/-- The exponents are those of radicals of the system, and below their indices. -/
def Reduced (R : Set (ℕ × ℕ)) (e : ℕ × ℕ →₀ ℤ) : Prop :=
  ∀ a ∈ e.support, a ∈ R ∧ 0 < e a ∧ e a < a.2

/-- Roots of positive integers, for which no quotient of two different reduced
products is rational. -/
structure Independent (R : Set (ℕ × ℕ)) : Prop where
  positive : ∀ a ∈ R, 0 < a.1
  proper : ∀ a ∈ R, 2 ≤ a.2
  irrational : ∀ d e, Reduced R d → Reduced R e → d ≠ e → Irrational (product d / product e)

/-- A part of an independent system is independent. -/
theorem Independent.mono {R S : Set (ℕ × ℕ)} (system : Independent S) (part : R ⊆ S) :
    Independent R where
  positive a member := system.positive a (part member)
  proper a member := system.proper a (part member)
  irrational d e left right := system.irrational d e
    (fun a member => ⟨part (left a member).1, (left a member).2⟩)
    (fun a member => ⟨part (right a member).1, (right a member).2⟩)

theorem value_pos {a : ℕ × ℕ} (positive : 0 < a.1) : 0 < value a :=
  Real.rpow_pos_of_pos (by exact_mod_cast positive) _

theorem value_pow {a : ℕ × ℕ} (proper : a.2 ≠ 0) : value a ^ a.2 = a.1 := by
  rw [value, one_div]
  exact Real.rpow_inv_natCast_pow (Nat.cast_nonneg _) proper

theorem product_pos {e : ℕ × ℕ →₀ ℤ} (positive : ∀ a ∈ e.support, 0 < a.1) : 0 < product e :=
  Finset.prod_pos fun a member => zpow_pos (value_pos (positive a member)) _

theorem product_single_add {b : ℕ × ℕ} (positive : 0 < b.1) (n : ℤ) {e : ℕ × ℕ →₀ ℤ}
    (others : ∀ a ∈ e.support, 0 < a.1) : product (.single b n + e) = value b ^ n * product e := by
  have inside : ∀ a ∈ (Finsupp.single b n).support ∪ e.support, value a ≠ 0 := by
    intro a member
    rcases Finset.mem_union.mp member with first | second
    · rw [Finset.mem_singleton.mp (Finsupp.support_single_subset first)]
      exact (value_pos positive).ne'
    · exact (value_pos (others a second)).ne'
  rw [product, Finsupp.prod_add_index (fun _ _ => zpow_zero _) fun a member i j =>
    zpow_add₀ (inside a member) i j, Finsupp.prod_single_index (zpow_zero _)]
  rfl

/-- Products of radicals are radicals. -/
theorem product_power {R : Set (ℕ × ℕ)} (system : Independent R) {e : ℕ × ℕ →₀ ℤ}
    (reduced : Reduced R e) : ∃ n ≠ 0, ∃ q : ℚ, product e ^ n = q := by
  refine Finset.prod_induction _ (fun x : ℝ => ∃ n ≠ 0, ∃ q : ℚ, x ^ n = q) ?_ ?_ ?_
  · rintro x y ⟨m, proper, p, left⟩ ⟨n, proper', q, right⟩
    refine ⟨m * n, mul_ne_zero proper proper', p ^ n * q ^ m, ?_⟩
    rw [mul_pow, pow_mul, left, mul_comm m, pow_mul, right]
    push_cast
    rfl
  · exact ⟨1, one_ne_zero, 1, by simp⟩
  · intro a member
    have proper : a.2 ≠ 0 := by
      have := system.proper a (reduced a member).1
      omega
    refine ⟨a.2, proper, (a.1 : ℚ) ^ e a, ?_⟩
    rw [← zpow_natCast, zpow_comm, zpow_natCast, value_pow proper]
    push_cast
    rfl

/-- Reduced products of an independent system are linearly independent. -/
theorem Independent.linearIndependent {R : Set (ℕ × ℕ)} (system : Independent R) :
    LinearIndependent ℚ fun e : { e // Reduced R e } => product e := by
  refine linearIndependent_of_irrational (fun e => ?_) (fun e => product_power system e.2) ?_
  · exact product_pos fun a member => system.positive a (e.2 a member).1
  · exact fun d e different =>
      system.irrational d e d.2 e.2 fun same => different (Subtype.ext same)

/-! ## Roots of primes -/

theorem padicValRat_prod (p : ℕ) [Fact p.Prime] (S : Finset (ℕ × ℕ)) (g : ℕ × ℕ → ℤ)
    (positive : ∀ a ∈ S, 0 < a.1) :
    padicValRat p (∏ a ∈ S, (a.1 : ℚ) ^ g a) = ∑ a ∈ S, g a * padicValRat p (a.1 : ℚ) := by
  induction S using Finset.induction_on with
  | empty => simp
  | insert a S fresh ih =>
    have tail := (Finset.forall_mem_insert _ _ _ |>.mp positive).2
    have nonzero : ∀ b ∈ insert a S, (b.1 : ℚ) ^ g b ≠ 0 := fun b member =>
      zpow_ne_zero _ (Nat.cast_ne_zero.mpr (positive b member).ne')
    rw [Finset.prod_insert fresh, Finset.sum_insert fresh, padicValRat.mul
      (nonzero a (Finset.mem_insert_self a S))
      (Finset.prod_ne_zero_iff.mpr fun b member => nonzero b (Finset.mem_insert_of_mem member)),
      ih tail, padicValRat.zpow]

/-- A large power of a product of radicals is a product of powers of radicands. -/
theorem product_pow_common {S : Finset (ℕ × ℕ)} {e : ℕ × ℕ →₀ ℤ} (inside : e.support ⊆ S)
    (proper : ∀ a ∈ S, a.2 ≠ 0) :
    product e ^ (∏ a ∈ S, a.2) =
      ((∏ a ∈ S, (a.1 : ℚ) ^ (e a * ((∏ a ∈ S, a.2) / a.2 : ℕ)) : ℚ) : ℝ) := by
  rw [product, Finsupp.prod_of_support_subset e inside _ fun _ _ => zpow_zero _,
    ← Finset.prod_pow, Rat.cast_prod]
  refine Finset.prod_congr rfl fun a member => ?_
  have divides : a.2 ∣ ∏ a ∈ S, a.2 := Finset.dvd_prod_of_mem _ member
  calc (value a ^ e a) ^ (∏ a ∈ S, a.2)
      = (value a ^ e a) ^ (a.2 * ((∏ a ∈ S, a.2) / a.2)) := by rw [Nat.mul_div_cancel' divides]
    _ = ((value a ^ a.2) ^ e a) ^ ((∏ a ∈ S, a.2) / a.2) := by
        rw [pow_mul, ← zpow_natCast (value a ^ e a), zpow_comm, zpow_natCast]
    _ = (((a.1 : ℚ) ^ (e a * ((∏ a ∈ S, a.2) / a.2 : ℕ)) : ℚ) : ℝ) := by
        rw [value_pow (proper a member), zpow_mul, zpow_natCast]
        push_cast
        rfl

theorem Reduced.bounds {R : Set (ℕ × ℕ)} {e : ℕ × ℕ →₀ ℤ} (reduced : Reduced R e) {a : ℕ × ℕ}
    (proper : a.2 ≠ 0) : 0 ≤ e a ∧ e a < a.2 := by
  by_cases member : a ∈ e.support
  · exact ⟨(reduced a member).2.1.le, (reduced a member).2.2⟩
  · rw [Finsupp.notMem_support_iff.mp member]
    omega

/-- The valuation at the radicand of one of several radicals of different primes
is the exponent there. -/
theorem padicValRat_prime {S : Finset (ℕ × ℕ)} {a : ℕ × ℕ} (member : a ∈ S)
    (prime : ∀ b ∈ S, b.1.Prime) (own : ∀ b ∈ S, b.1 = a.1 → b = a) (g : ℕ × ℕ → ℤ) :
    padicValRat a.1 (∏ b ∈ S, (b.1 : ℚ) ^ g b) = g a := by
  have : Fact a.1.Prime := ⟨prime a member⟩
  rw [padicValRat_prod a.1 S g fun b inside => (prime b inside).pos,
    Finset.sum_eq_single_of_mem a member]
  · rw [padicValRat.self (prime a member).one_lt, mul_one]
  · intro b inside other
    have : Fact b.1.Prime := ⟨prime b inside⟩
    have different : a.1 ≠ b.1 := fun same => other (own b inside same.symm)
    rw [padicValRat.of_nat, padicValNat_primes different, Nat.cast_zero, mul_zero]

/-- If two products of roots of different primes have a rational quotient, then
their exponents differ by multiples of the indices. -/
theorem exponent_of_rational {S : Finset (ℕ × ℕ)} {a : ℕ × ℕ} {d e : ℕ × ℕ →₀ ℤ} {q : ℚ}
    (member : a ∈ S) (prime : ∀ b ∈ S, b.1.Prime) (index : ∀ b ∈ S, b.2 ≠ 0)
    (own : ∀ b ∈ S, b.1 = a.1 → b = a) (left : d.support ⊆ S) (right : e.support ⊆ S)
    (nonzero : q ≠ 0) (rational : product d = q * product e) :
    d a = a.2 * padicValRat a.1 q + e a := by
  have : Fact a.1.Prime := ⟨prime a member⟩
  -- A common multiple of the indices turns both products into rationals.
  set N := ∏ b ∈ S, b.2
  have equal : (∏ b ∈ S, (b.1 : ℚ) ^ (d b * (N / b.2 : ℕ))) =
      q ^ N * ∏ b ∈ S, (b.1 : ℚ) ^ (e b * (N / b.2 : ℕ)) := by
    have powers := congrArg (· ^ N) rational
    simp only [mul_pow] at powers
    rw [product_pow_common left index, product_pow_common right index] at powers
    exact_mod_cast powers
  have valuation := congrArg (padicValRat a.1) equal
  rw [padicValRat.mul (pow_ne_zero N nonzero) (Finset.prod_ne_zero_iff.mpr fun b inside =>
      zpow_ne_zero _ (Nat.cast_ne_zero.mpr (prime b inside).ne_zero)),
    padicValRat_prime member prime own, padicValRat_prime member prime own,
    padicValRat.pow] at valuation
  have factor : N = a.2 * (N / a.2) := (Nat.mul_div_cancel' (Finset.dvd_prod_of_mem _ member)).symm
  have quotient : (N / a.2 : ℕ) ≠ 0 := by
    intro zero
    rw [zero, Nat.mul_zero] at factor
    exact Finset.prod_ne_zero_iff.mpr index factor
  have common : (N : ℤ) = a.2 * (N / a.2 : ℕ) := by exact_mod_cast factor
  refine mul_right_cancel₀ (Int.natCast_ne_zero.mpr quotient) ?_
  rw [valuation]
  linear_combination padicValRat a.1 q * common

/-- Roots of primes, each prime with one index, are independent. -/
theorem independent_of_primes {R : Set (ℕ × ℕ)} (prime : ∀ a ∈ R, a.1.Prime)
    (proper : ∀ a ∈ R, 2 ≤ a.2) (own : ∀ a ∈ R, ∀ b ∈ R, a.1 = b.1 → a = b) : Independent R := by
  refine ⟨fun a member => (prime a member).pos, proper, fun d e left right different => ?_⟩
  rintro ⟨q, rational⟩
  refine different (Finsupp.ext fun a => ?_)
  -- All radicals that occur.
  let S := d.support ∪ e.support
  have known : ∀ b ∈ S, b ∈ R := fun b member =>
    (Finset.mem_union.mp member).elim (fun m => (left b m).1) fun m => (right b m).1
  have index : ∀ b ∈ S, b.2 ≠ 0 := fun b member => by have := proper b (known b member); omega
  by_cases absent : a ∉ S
  · obtain ⟨first, second⟩ := Finset.notMem_union.mp absent
    rw [Finsupp.notMem_support_iff.mp first, Finsupp.notMem_support_iff.mp second]
  have member : a ∈ S := not_not.mp absent
  have above : 0 < product d := product_pos fun b m => (prime b (left b m).1).pos
  have below : 0 < product e := product_pos fun b m => (prime b (right b m).1).pos
  have nonzero : q ≠ 0 := by
    rintro rfl
    rw [Rat.cast_zero] at rational
    exact (div_pos above below).ne rational
  have step := exponent_of_rational member (fun b inside => prime b (known b inside)) index
    (fun b inside => own b (known b inside) a (known a member)) Finset.subset_union_left
    Finset.subset_union_right nonzero ((eq_div_iff below.ne').mp rational).symm
  -- Both exponents are below the index.
  obtain ⟨low, high⟩ := left.bounds (index a member)
  obtain ⟨low', high'⟩ := right.bounds (index a member)
  rw [← Int.emod_eq_of_lt low high, step, Int.mul_add_emod_self_left, Int.emod_eq_of_lt low' high']

end Discharge.Radical
