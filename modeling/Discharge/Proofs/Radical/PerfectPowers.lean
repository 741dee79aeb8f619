import Mathlib
import Discharge.Proofs.Canonical.Tree
import Discharge.Proofs.Canonical.Roots
import Discharge.Proofs.Radical.LargePart

/-! Roots of perfect powers. The split of a root multiplies out to the number, and
nothing stays under the root of a perfect power: what trial division takes out is the
part of the base within its reach, and the cofactor is a power again, which its own
root tells. So the root of the power of a rational is the rational. -/

namespace Discharge

namespace Radical

variable {m n k p rest : Nat} {s : Split}

/-! ## Perfect powers -/

/-- Trial division leaves no prime of a perfect power in the combined radicand. -/
theorem Divided.combined_of_pow (divided : Divided k (m ^ k) rest s) (positive : 0 < m)
    (other : k ≠ 2) : s.combined = 1 := by
  have alone : s.inside = [] := (divided.apart.resolve_left fun two => other two.1).2
  have product := divided.product
  rw [alone, List.prod_nil, Nat.one_mul] at product
  have whole : s.outside ^ k * s.combined * rest ≠ 0 := product ▸ (Nat.pow_pos positive).ne'
  have taken : s.outside ^ k ≠ 0 := left_ne_zero_of_mul (left_ne_zero_of_mul whole)
  have combined : s.combined ≠ 0 := right_ne_zero_of_mul (left_ne_zero_of_mul whole)
  refine Nat.eq_one_iff_not_exists_prime_dvd.mpr fun p prime divides => divided.free p prime ?_
  -- The prime divides the power and what is outside a multiple of `k` times.
  have apart : rest.factorization p = 0 := by
    refine Nat.factorization_eq_zero_of_not_dvd fun both => ?_
    exact Nat.not_coprime_of_dvd_of_dvd prime.one_lt divides both divided.coprime
  have count : k * m.factorization p =
      k * s.outside.factorization p + s.combined.factorization p := by
    have exponents := congrArg (fun n => n.factorization p) product
    simpa [Nat.factorization_mul (left_ne_zero_of_mul whole) divided.positive.ne',
      Nat.factorization_mul taken combined, apart] using exponents
  have multiple : k ∣ s.combined.factorization p :=
    (Nat.dvd_add_right (dvd_mul_right k _)).mp (count ▸ dvd_mul_right k _)
  refine (prime.pow_dvd_iff_le_factorization combined).mpr (Nat.le_of_dvd ?_ multiple)
  exact prime.factorization_pos_of_dvd combined divides

/-- Nothing stays under the root of a perfect power. -/
theorem radicands_pow (proper : 2 ≤ k) (positive : 0 < m) : (integerRoot (m ^ k) k).2 = [] := by
  by_cases two : k = 2
  · subst two
    refine List.eq_nil_iff_forall_not_mem.mpr fun q member => ?_
    rcases (mem_radicands (Nat.pow_pos positive)).mp member with ⟨-, -, odd⟩ | ⟨other, -⟩
    · rw [Nat.factorization_pow] at odd
      exact Nat.not_odd_iff_even.mpr (even_two_mul _) odd
    · refine other ?_
      rw [Nat.pow_two, largePart_mul positive.ne' positive.ne']
      exact ⟨_, rfl⟩
  obtain ⟨s, rest, divided, cases⟩ := integerRoot_cases proper (Nat.pow_pos positive (n := k))
  have one := divided.combined_of_pow positive two
  have alone : s.inside = [] := (divided.apart.resolve_left fun square => two square.1).2
  have none : s.radicands = [] := by rw [Split.radicands, if_neg (by omega), alone]
  rcases cases with ⟨-, result⟩ | ⟨r, -, -, result⟩ | ⟨-, unlike, -⟩
  · rw [result, none]
  · rw [result, none]
  · -- The cofactor is the power of what is left of the base.
    have product := divided.product
    rw [alone, one, List.prod_nil, Nat.one_mul, Nat.mul_one] at product
    obtain ⟨r, base⟩ := (Nat.pow_dvd_pow_iff (by omega)).mp ⟨rest, product⟩
    have outside : 0 < s.outside := Nat.pos_of_dvd_of_pos ⟨r, base⟩ positive
    rw [base, Nat.mul_pow] at product
    exact absurd (Nat.eq_of_mul_eq_mul_left (Nat.pow_pos outside) product) (unlike r)

/-- The root of a perfect power is its base. -/
theorem integerRoot_pow (proper : 2 ≤ k) (positive : 0 < m) : integerRoot (m ^ k) k = (m, []) := by
  have none := radicands_pow proper positive
  have product := (integerRoot_split k (Nat.pow_pos positive (n := k))).1
  rw [none, List.prod_nil, Nat.mul_one] at product
  exact Prod.ext (Nat.pow_left_injective (by omega) product).symm none

/-! ## Square roots -/

/-- The radicands of a square root have no common factors, and none is a square. -/
theorem radicands_two (positive : 0 < n) : (integerRoot n 2).2.Pairwise Nat.Coprime ∧
    ∀ p ∈ (integerRoot n 2).2, 1 < p ∧ ¬ IsSquare p := by
  obtain ⟨ps, primes, radicands⟩ := integerRoot_two positive
  obtain ⟨-, distinct, above⟩ := integerRoot_split 2 positive
  have large : ∀ q ∈ (if IsSquare (largePart n) then [] else [largePart n]),
      q = largePart n ∧ ¬ IsSquare q := by
    intro q member
    split at member
    · exact absurd member List.not_mem_nil
    · rw [List.mem_singleton.mp member]
      exact ⟨rfl, ‹_›⟩
  constructor
  · rw [radicands] at distinct ⊢
    refine List.pairwise_append.mpr ⟨?_, ?_, fun p member q other => ?_⟩
    · refine (List.nodup_append.mp distinct).1.imp_of_mem fun {p q} first second different => ?_
      exact (Nat.coprime_primes (primes p first).1 (primes q second).1).mpr different
    · split
      · exact List.Pairwise.nil
      · exact List.pairwise_singleton _ _
    · rw [(large q other).1]
      exact coprime_of_small (.of_prime (primes p member).1 (primes p member).2)
        (large_largePart n)
  · intro p member
    refine ⟨above p member, ?_⟩
    rw [radicands] at member
    rcases List.mem_append.mp member with small | other
    · exact (primes p small).1.prime.irreducible.not_isSquare
    · exact (large p other).2

end Radical

/-! ## Roots of powers of rationals -/

variable {k max : Nat} {q : Rat}

theorem Poly.rationalRadical_pow (proper : 2 ≤ k) (nonneg : 0 ≤ q) :
    rationalRadical (q ^ k) k = .ok (.constant q) := by
  rcases nonneg.eq_or_lt with zero | positive
  · subst zero
    rw [zero_pow (by omega), rationalRadical, if_pos rfl]
    rfl
  have above : 0 < q ^ k := pow_pos positive k
  have base : 0 < q.num.natAbs * q.den ^ (k - 1) :=
    Nat.mul_pos (Int.natAbs_pos.mpr (Rat.num_pos.mpr positive).ne') (Nat.pow_pos q.den_pos)
  -- The denominator is moved under the root, where everything is a power.
  have lifted : (q ^ k).num.natAbs * Nat.pow (q ^ k).den (k - 1) =
      (q.num.natAbs * q.den ^ (k - 1)) ^ k := by
    rw [Rat.num_pow, Rat.den_pow, Int.natAbs_pow, Nat.pow_eq, Nat.mul_pow, Nat.pow_right_comm]
  rw [rationalRadical, if_neg above.ne', if_neg above.not_gt, positiveRadical, lifted,
    integerRadical, Radical.integerRoot_pow proper base]
  have value : ((q.num.natAbs * q.den ^ (k - 1) : Nat) : Rat) * mkRat 1 (q ^ k).den = q := by
    have num : ((q.num.natAbs : Nat) : Rat) = q.num := by
      rw [Nat.cast_natAbs, abs_of_pos (Rat.num_pos.mpr positive)]
    have den : (q.den : Rat) ≠ 0 := Nat.cast_ne_zero.mpr q.den_ne_zero
    have split : (q.den : Rat) ^ k = q.den ^ (k - 1) * q.den := (pow_sub_one_mul (by omega) _).symm
    rw [Rat.mkRat_eq_div, Rat.den_pow, Nat.cast_mul, num, Nat.cast_pow, Nat.cast_pow, split,
      Int.cast_one]
    calc (q.num : Rat) * q.den ^ (k - 1) * (1 / (q.den ^ (k - 1) * q.den))
        = q.num / q.den := by field_simp
      _ = q := Rat.num_div_den q
  change Except.ok ((Poly.term .one _).scale _) = _
  rw [scale_term, value]
  rfl

namespace Fraction

/-- The root of a power of a rational that is not negative is the rational. -/
theorem root_pow (proper : 2 ≤ k) (nonneg : 0 ≤ q) :
    (constant (q ^ k)).root k = .ok (.constant q) := by
  rw [root_of_constant proper (constant?_constant _), Poly.rationalRadical_pow proper nonneg]
  rfl

theorem constant_mul_one (q : Rat) : (constant q).mul .one = .ok (.constant q) := by
  have product := mul_term (Monomial.combine_one .one) Monomial.irreducible_one q 1
  rwa [mul_one] at product

/-- The power of a power with the reciprocal exponent, within the guard of indices. -/
theorem ofExpr_root_pow (proper : 2 ≤ k) (within : k ≤ max) (nonneg : 0 ≤ q) :
    ofExpr max (.power (.number (q ^ k)) (.number (1 / k))) = .ok (.constant q) := by
  have reciprocal : mkRat 1 k = 1 / (k : Rat) := by
    rw [Rat.mkRat_eq_div, Int.cast_one]
  have root : Returns ((constant (q ^ k)).powRat (mkRat 1 k) max) (.constant q) (k ≤ max) :=
    Expr.powRat_reciprocal proper (root_pow proper nonneg) (Expr.one_mul_constant q)
      (constant_mul_one q)
  rw [ofExpr, ofExpr, ofExpr, ← reciprocal]
  change (constant (q ^ k)).pow (.constant (mkRat 1 k)) max = _
  unfold pow
  rw [constant?_constant]
  exact root.eq_ok_iff.mpr within

end Fraction

/-- The split of the root of a positive integer: it multiplies out to the number, the
radicands of a square root are coprime in pairs and no squares, and the root of a
perfect power is its base, with nothing left under the root. The root that a cofactor
is compared with is the floor of its real root. So the root of the power of a rational
that is not negative is the rational. -/
theorem integer_roots_exact {n k : Nat} (positive : 0 < n) (proper : 2 ≤ k) :
    n = (Radical.integerRoot n k).1 ^ k * (Radical.integerRoot n k).2.prod ∧
      (k = 2 → (Radical.integerRoot n k).2.Pairwise Nat.Coprime ∧
        ∀ p ∈ (Radical.integerRoot n k).2, 1 < p ∧ ¬ IsSquare p) ∧
      (∀ m, n = m ^ k → Radical.integerRoot n k = (m, [])) ∧
      (Radical.floorRoot n k ^ k ≤ n ∧ n < (Radical.floorRoot n k + 1) ^ k) ∧
      ∀ q : Rat, 0 ≤ q → (Fraction.constant (q ^ k)).root k = .ok (.constant q) ∧
        ∀ max, k ≤ max → Fraction.ofExpr max (.power (.number (q ^ k)) (.number (1 / k))) =
          .ok (.constant q) := by
  refine ⟨(Radical.integerRoot_split k positive).1, fun two => ?_, fun m power => ?_,
    Radical.floorRoot_bounds (by omega) positive, fun q nonneg => ⟨Fraction.root_pow proper nonneg,
      fun max within => Fraction.ofExpr_root_pow proper within nonneg⟩⟩
  · subst two
    exact Radical.radicands_two positive
  · have base : 0 < m := by
      refine Nat.pos_of_ne_zero fun zero => positive.ne' ?_
      rw [power, zero, Nat.zero_pow (by omega)]
    rw [power]
    exact Radical.integerRoot_pow proper base

/-- A cube whose base is beyond the reach of trial division, and one of a fraction. -/
theorem integer_roots_exact_largeCube :
    0 < 100003 ^ 3 ∧ Radical.integerRoot (100003 ^ 3) 3 = (100003, []) ∧
      (Fraction.constant ((100003 / 6) ^ 3)).root 3 = .ok (.constant (100003 / 6)) ∧
      Fraction.ofExpr 64 (.power (.number ((100003 / 6) ^ 3)) (.number (1 / 3))) =
        .ok (.constant (100003 / 6)) := by
  have positive : 0 < 100003 ^ 3 := by decide
  obtain ⟨-, -, powers, -, roots⟩ := integer_roots_exact positive (k := 3) (by decide)
  obtain ⟨root, power⟩ := roots (100003 / 6) (by norm_num)
  exact ⟨positive, powers 100003 rfl, root, by exact_mod_cast power 64 (by decide)⟩

end Discharge
