import Mathlib
import Discharge.Proofs.Radical.TrialDivision

/-! The radicands of a square root. They are the primes within reach of trial division
that divide the number an odd number of times, and besides these the product of all
greater prime factors, unless that is a square. The radicands of a product are those
of either factor that are not radicands of both, as long as the large products can be
taken apart again: unless both are there, different, and not both squares. -/

namespace Discharge.Radical

variable {m n p q : Nat}

/-- The product of the prime factors beyond the reach of trial division, each as often
as it divides the number. -/
def largePart (n : Nat) : Nat := (n.primeFactorsList.filter (divisionLimit < ·)).prod

theorem largePart_mul (first : m ≠ 0) (second : n ≠ 0) :
    largePart (m * n) = largePart m * largePart n := by
  have factors := (Nat.perm_primeFactorsList_mul first second).filter (divisionLimit < ·)
  unfold largePart
  rw [factors.prod_eq, List.filter_append, List.prod_append]

theorem largePart_of_small (small : Small n) : largePart n = 1 := by
  have none : n.primeFactorsList.filter (divisionLimit < ·) = [] := by
    refine List.filter_eq_nil_iff.mpr fun p member => ?_
    have bound := small p (Nat.prime_of_mem_primeFactorsList member)
      (Nat.dvd_of_mem_primeFactorsList member)
    simpa using bound
  rw [largePart, none, List.prod_nil]

theorem largePart_of_large (nonzero : n ≠ 0) (large : Large n) : largePart n = n := by
  have all : n.primeFactorsList.filter (divisionLimit < ·) = n.primeFactorsList := by
    refine List.filter_eq_self.mpr fun p member => ?_
    have bound := large p (Nat.prime_of_mem_primeFactorsList member)
      (Nat.dvd_of_mem_primeFactorsList member)
    simpa using bound
  rw [largePart, all, Nat.prod_primeFactorsList nonzero]

theorem large_largePart (n : Nat) : Large (largePart n) := by
  intro p prime divides
  obtain ⟨q, member, factor⟩ := prime.prime.dvd_prod_iff.mp divides
  obtain ⟨inside, above⟩ := List.mem_filter.mp member
  rw [(Nat.prime_dvd_prime_iff_eq prime (Nat.prime_of_mem_primeFactorsList inside)).mp factor]
  simpa using above

theorem largePart_pos (n : Nat) : 0 < largePart n :=
  List.prod_pos fun _ member => Nat.pos_of_mem_primeFactorsList (List.mem_filter.mp member).1

theorem Small.mul {a b : Nat} (first : Small a) (second : Small b) : Small (a * b) :=
  fun p prime divides => (prime.dvd_mul.mp divides).elim (first p prime) (second p prime)

theorem Small.of_prime (prime : p.Prime) (small : p ≤ divisionLimit) : Small p :=
  fun q prime' divides => by rwa [(Nat.prime_dvd_prime_iff_eq prime' prime).mp divides]

theorem Small.prod {ps : List Nat} (each : ∀ p ∈ ps, p.Prime ∧ p ≤ divisionLimit) :
    Small ps.prod := by
  intro q prime divides
  obtain ⟨p, member, factor⟩ := prime.prime.dvd_prod_iff.mp divides
  exact Small.of_prime (each p member).1 (each p member).2 q prime factor

/-! ## Radicands -/

/-- The radicands of a square root: small primes, and the large part unless it is a
square. -/
theorem integerRoot_two (positive : 0 < n) : ∃ ps : List Nat,
    (∀ p ∈ ps, p.Prime ∧ p ≤ divisionLimit) ∧
      (integerRoot n 2).2 = ps ++ if IsSquare (largePart n) then [] else [largePart n] := by
  obtain ⟨s, rest, divided, cases⟩ := integerRoot_cases le_rfl positive
  have one : s.combined = 1 := by simpa using divided.apart
  have radicands : s.radicands = s.inside := by rw [Split.radicands, if_neg (by omega)]
  -- What is outside and inside of the root are small factors.
  have part : largePart n = largePart rest := by
    have taken : Small (s.outside ^ 2 * (s.inside.prod * s.combined)) := by
      rw [one, Nat.mul_one, Nat.pow_two]
      exact (divided.outside.mul divided.outside).mul (.prod divided.inside)
    have product := divided.product
    have nonzero : s.outside ^ 2 * (s.inside.prod * s.combined) ≠ 0 := by
      intro zero
      rw [zero, Nat.zero_mul] at product
      omega
    rw [product, largePart_mul nonzero divided.positive.ne', largePart_of_small taken, Nat.one_mul]
  rw [part]
  rcases cases with ⟨none, result⟩ | ⟨r, above, power, result⟩ | ⟨above, unlike, result⟩
  · refine ⟨s.inside, divided.inside, ?_⟩
    have small : Small 1 := fun p prime divides => absurd divides prime.not_dvd_one
    rw [result, radicands, none, largePart_of_small small, if_pos IsSquare.one, List.append_nil]
  · refine ⟨s.inside, divided.inside, ?_⟩
    have nonzero : r ≠ 0 := by omega
    have square : IsSquare (largePart rest) := by
      rw [power, Nat.pow_two, largePart_mul nonzero nonzero]
      exact ⟨_, rfl⟩
    rw [result, radicands, if_pos square, List.append_nil]
  · rw [result, if_pos rfl]
    -- A prime cofactor may be within reach of trial division.
    have cofactor : rest.Prime ∧ rest ≤ divisionLimit ∨ Large rest := by
      rcases divided.cofactor with prime | large
      · rcases le_or_gt rest divisionLimit with small | beyond
        · exact .inl ⟨prime, small⟩
        · exact .inr fun p prime' divides => by
            rwa [(Nat.prime_dvd_prime_iff_eq prime' prime).mp divides]
      · exact .inr large
    rcases cofactor with ⟨prime, small⟩ | large
    · refine ⟨s.inside ++ [rest], List.forall_mem_append.mpr ⟨divided.inside, ?_⟩, ?_⟩
      · exact List.forall_mem_singleton.mpr ⟨prime, small⟩
      · rw [largePart_of_small (.of_prime prime small), if_pos IsSquare.one, List.append_nil]
    · refine ⟨s.inside, divided.inside, ?_⟩
      have other : ¬ IsSquare rest := by
        rintro ⟨r, square⟩
        exact unlike r (by rw [Nat.pow_two, square])
      rw [largePart_of_large divided.positive.ne' large, if_neg other]

/-- Which small primes are radicands. -/
def OddPrime (n q : Nat) : Prop :=
  q.Prime ∧ q ≤ divisionLimit ∧ Odd (n.factorization q)

/-- Which other number is a radicand. -/
def LargeRadicand (n q : Nat) : Prop := ¬ IsSquare (largePart n) ∧ q = largePart n

theorem LargeRadicand.beyond (radicand : LargeRadicand n q) : divisionLimit < q := by
  obtain ⟨other, rfl⟩ := radicand
  have nontrivial : largePart n ≠ 1 := fun one => other (one ▸ IsSquare.one)
  obtain ⟨p, prime, divides⟩ := Nat.exists_prime_and_dvd nontrivial
  exact (large_largePart n p prime divides).trans_le (Nat.le_of_dvd (largePart_pos n) divides)

theorem mem_radicands (positive : 0 < n) :
    q ∈ (integerRoot n 2).2 ↔ OddPrime n q ∨ LargeRadicand n q := by
  obtain ⟨ps, primes, radicands⟩ := integerRoot_two positive
  obtain ⟨product, distinct, -⟩ := integerRoot_split 2 positive
  rw [radicands] at product distinct ⊢
  have large : q ∈ (if IsSquare (largePart n) then [] else [largePart n]) ↔ LargeRadicand n q := by
    by_cases square : IsSquare (largePart n)
    · rw [if_pos square]
      exact iff_of_false List.not_mem_nil fun radicand => radicand.1 square
    · rw [if_neg square, List.mem_singleton]
      exact ⟨fun same => ⟨square, same⟩, And.right⟩
  have free (small : q ≤ divisionLimit) (prime : q.Prime) :
      ((if IsSquare (largePart n) then [] else [largePart n]).prod).factorization q = 0 := by
    refine Nat.factorization_eq_zero_of_not_dvd fun divides => ?_
    split at divides
    · exact prime.not_dvd_one divides
    · rw [List.prod_singleton] at divides
      exact absurd small (large_largePart n q prime divides).not_ge
  generalize (if IsSquare (largePart n) then [] else [largePart n]) = rest at *
  rw [List.mem_append, large]
  refine or_congr_left ?_
  -- A small prime divides the product of the radicands as often as it is one of them.
  have count (prime : q.Prime) (small : q ≤ divisionLimit) :
      n.factorization q = 2 * (integerRoot n 2).1.factorization q + ps.count q := by
    have taken : (ps.prod).factorization q = ps.count q := by
      rw [← Nat.primeFactorsList_count_eq]
      exact ((Nat.primeFactorsList_unique rfl fun p member => (primes p member).1).count_eq q).symm
    rw [List.prod_append] at product
    have square : (integerRoot n 2).1 ^ 2 ≠ 0 := left_ne_zero_of_mul (product ▸ positive.ne')
    have inside : ps.prod * rest.prod ≠ 0 := right_ne_zero_of_mul (product ▸ positive.ne')
    calc n.factorization q
        = ((integerRoot n 2).1 ^ 2 * (ps.prod * rest.prod)).factorization q :=
          congrArg (·.factorization q) product
      _ = 2 * (integerRoot n 2).1.factorization q + ps.count q := by
        rw [Nat.factorization_mul square inside, Nat.factorization_mul (left_ne_zero_of_mul inside)
          (right_ne_zero_of_mul inside), Nat.factorization_pow]
        simp [free small prime, taken]
  constructor
  · intro member
    obtain ⟨prime, small⟩ := primes q member
    refine ⟨prime, small, ?_⟩
    rw [count prime small, List.count_eq_one_of_mem distinct.of_append_left member]
    exact ⟨_, rfl⟩
  · rintro ⟨prime, small, odd⟩
    by_contra absent
    rw [count prime small, List.count_eq_zero_of_not_mem absent] at odd
    exact Nat.not_odd_iff_even.mpr ⟨_, by ring⟩ odd

/-- The large parts of two numbers can be told apart in their product, or are not
needed. -/
def Separable (m n : Nat) : Prop :=
  largePart m = 1 ∨ largePart n = 1 ∨ largePart m = largePart n ∨
    IsSquare (largePart m) ∧ IsSquare (largePart n)

theorem oddPrime_mul (first : 0 < m) (second : 0 < n) : OddPrime (m * n) q ↔
    OddPrime m q ∧ ¬ OddPrime n q ∨ OddPrime n q ∧ ¬ OddPrime m q := by
  have sum := Nat.factorization_mul first.ne' second.ne'
  unfold OddPrime
  rw [sum, Finsupp.add_apply, Nat.odd_add, ← Nat.not_odd_iff_even]
  tauto

/-- The large radicands of a product are those of one factor alone, for separable
numbers and no others. -/
theorem largeRadicand_mul (first : 0 < m) (second : 0 < n) :
    (∀ q, LargeRadicand (m * n) q ↔ LargeRadicand m q ∧ ¬ LargeRadicand n q ∨
      LargeRadicand n q ∧ ¬ LargeRadicand m q) ↔ Separable m n := by
  have left := largePart_pos m
  have right := largePart_pos n
  unfold LargeRadicand Separable
  rw [largePart_mul first.ne' second.ne']
  generalize largePart m = a at *
  generalize largePart n = b at *
  constructor
  · intro same
    by_contra apart
    push Not at apart
    obtain ⟨proper, proper', different, square⟩ := apart
    by_cases other : IsSquare a
    · -- The product is kept whole, although the second number is a radicand.
      have whole := (same b).mpr (.inr ⟨⟨square other, rfl⟩, fun absurd => absurd.1 other⟩)
      exact proper (Nat.eq_of_mul_eq_mul_right right (by rw [Nat.one_mul]; exact whole.2.symm))
    · have whole := (same a).mpr (.inl ⟨⟨other, rfl⟩, fun absurd => different absurd.2⟩)
      exact proper' (Nat.eq_of_mul_eq_mul_left left (by rw [Nat.mul_one]; exact whole.2.symm))
  · rintro (rfl | rfl | rfl | ⟨square, square'⟩) q
    · simp
    · simp
    · simp
    · simp [square, square', square.mul square']

/-- The radicands of a square root. -/
def radicandSet (n : Nat) : Finset Nat := (integerRoot n 2).2.toFinset

/-- Separable numbers, and no others, have the radicands of their product together. -/
theorem radicandSet_mul (first : 0 < m) (second : 0 < n) :
    radicandSet (m * n) = symmDiff (radicandSet m) (radicandSet n) ↔ Separable m n := by
  rw [← largeRadicand_mul first second, Finset.ext_iff]
  refine forall_congr' fun q => ?_
  unfold radicandSet
  rw [Finset.mem_symmDiff, List.mem_toFinset, List.mem_toFinset, List.mem_toFinset,
    mem_radicands (Nat.mul_pos first second), mem_radicands first, mem_radicands second,
    oddPrime_mul first second]
  -- A number is within reach of trial division, or beyond it.
  by_cases small : q ≤ divisionLimit
  · have none (k : Nat) : ¬ LargeRadicand k q := fun radicand => absurd small radicand.beyond.not_ge
    simp [none]
  · have none (k : Nat) : ¬ OddPrime k q := fun odd => small odd.2.1
    simp [none]

end Discharge.Radical
