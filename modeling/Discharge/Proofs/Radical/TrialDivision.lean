import Mathlib.Data.Nat.Prime.Basic
import Mathlib.Data.Nat.Prime.Pow
import Discharge.Proofs.Elementary.Radical

/-! What trial division leaves under a root. Up to the greatest divisor it finds
primes; the cofactor is prime or has only greater prime factors. So a radicand
that a root was split into is not split again, and the radicands of square roots
of small numbers are prime. -/

namespace Discharge.Radical

/-! ## Floors of roots -/

variable {n k r d rest index : Nat} {s : Split}

theorem rootBits_bounds (bits : Nat) (below : r ^ k ≤ n) (above : n < (r + 2 ^ bits) ^ k) :
    rootBits n k bits r ^ k ≤ n ∧ n < (rootBits n k bits r + 1) ^ k := by
  induction bits generalizing r with
  | zero => exact ⟨below, above⟩
  | succ bits ih =>
    rw [rootBits]
    dsimp only [Nat.pow_eq]
    split
    · rename_i candidate
      refine ih candidate ?_
      rwa [Nat.add_assoc, ← Nat.two_mul, ← Nat.pow_succ']
    · rename_i candidate
      exact ih below (Nat.lt_of_not_le candidate)

theorem floorRoot_bounds (proper : k ≠ 0) (positive : 0 < n) :
    floorRoot n k ^ k ≤ n ∧ n < (floorRoot n k + 1) ^ k := by
  have large : n < 2 ^ (n.log2 + 1) := Nat.lt_log2_self
  unfold floorRoot
  split
  · rename_i small
    rw [Nat.min_eq_right positive, Nat.one_pow]
    exact ⟨positive, large.trans_le (Nat.pow_le_pow_right (by omega) small)⟩
  · refine rootBits_bounds _ (by rw [Nat.zero_pow (by omega)]; omega) ?_
    rw [Nat.zero_add, ← Nat.pow_mul]
    refine large.trans_le (Nat.pow_le_pow_right (by omega) ?_)
    exact Nat.lt_div_mul_add (Nat.pos_of_ne_zero proper) |>.trans_eq (by ring)

/-- The floor of the root of a power is the root. -/
theorem floorRoot_pow (proper : k ≠ 0) (positive : 0 < r) : floorRoot (r ^ k) k = r := by
  obtain ⟨below, above⟩ := floorRoot_bounds proper (Nat.pow_pos positive (n := k))
  have low := (Nat.pow_le_pow_iff_left proper).mp below
  have high := (Nat.pow_lt_pow_iff_left proper).mp above
  omega

/-! ## Trial division -/

/-- The candidate after `d`. -/
theorem next_candidate (parity : d = 2 ∨ d % 2 = 1) (candidate : 2 ≤ d)
    (rough : ∀ m, 2 ≤ m → m < d → ¬ m ∣ rest) {rest' : Nat} (factor : rest' ∣ rest)
    (out : ¬ d ∣ rest') :
    ((if d = 2 then 3 else d + 2) = 2 ∨ (if d = 2 then 3 else d + 2) % 2 = 1) ∧
      ∀ m, 2 ≤ m → m < (if d = 2 then 3 else d + 2) → ¬ m ∣ rest' := by
  refine ⟨by split <;> omega, fun m proper below divides => ?_⟩
  have small : ¬ m < d := fun less => rough m proper less (divides.trans factor)
  have other : m ≠ d := fun same => out (same ▸ divides)
  -- Only the even number between two candidates is left.
  have even : d ≠ 2 ∧ m = d + 1 := by
    split at below <;> omega
  refine rough 2 le_rfl (by omega) ((Dvd.dvd.trans ?_ divides).trans factor)
  omega

/-- What is known of a split before the candidate `d`: what was found are primes up
to the greatest divisor, and nothing below `d` divides the cofactor. -/
structure Sieved (index d rest : Nat) (s : Split) : Prop where
  parity : d = 2 ∨ d % 2 = 1
  rough : ∀ m, 2 ≤ m → m < d → ¬ m ∣ rest
  outside : ∀ p, p.Prime → p ∣ s.outside → p ≤ divisionLimit
  inside : ∀ p ∈ s.inside, p.Prime ∧ p ≤ divisionLimit
  combined : ∀ p, p.Prime → p ∣ s.combined → p < d ∧ p ≤ divisionLimit
  free : ∀ p, p.Prime → ¬ p ^ index ∣ s.combined

theorem Sieved.prime (sieved : Sieved index d rest s) (candidate : 2 ≤ d) (divides : d ∣ rest) :
    d.Prime := by
  refine Nat.prime_def.mpr ⟨candidate, fun m factor => ?_⟩
  have below := Nat.le_of_dvd (by omega) factor
  have nonzero := Nat.pos_of_dvd_of_pos factor (by omega)
  by_contra neither
  exact sieved.rough m (by omega) (by omega) (factor.trans divides)

theorem Sieved.takePrime (sieved : Sieved index d rest s) (proper : 2 ≤ index)
    (limited : d ≤ divisionLimit) (prime : d.Prime) {rest' k : Nat} {d' : Nat} (later : d < d')
    (parity : d' = 2 ∨ d' % 2 = 1) (rough : ∀ m, 2 ≤ m → m < d' → ¬ m ∣ rest') :
    Sieved index d' rest' (s.takePrime index d k) := by
  have outside : ∀ p, p.Prime → p ∣ s.outside * d ^ (k / index) → p ≤ divisionLimit := by
    intro p found divides
    rcases (found.dvd_mul).mp divides with old | new
    · exact sieved.outside p found old
    · rwa [(Nat.prime_dvd_prime_iff_eq found prime).mp (found.dvd_of_dvd_pow new)]
  have combined : ∀ p, p.Prime → p ∣ s.combined → p < d' ∧ p ≤ divisionLimit := by
    intro p found divides
    obtain ⟨less, bounded⟩ := sieved.combined p found divides
    exact ⟨less.trans later, bounded⟩
  unfold Split.takePrime
  dsimp only [Nat.pow_eq]
  split
  · exact ⟨parity, rough, outside, sieved.inside, combined, sieved.free⟩
  split
  · refine ⟨parity, rough, outside, List.forall_mem_append.mpr ⟨sieved.inside, ?_⟩, combined,
      sieved.free⟩
    simpa using ⟨prime, limited⟩
  · refine ⟨parity, rough, outside, sieved.inside, fun p found divides => ?_,
      fun p found divides => ?_⟩
    · rcases (found.dvd_mul).mp divides with old | new
      · exact combined p found old
      · rw [(Nat.prime_dvd_prime_iff_eq found prime).mp (found.dvd_of_dvd_pow new)]
        exact ⟨later, limited⟩
    · -- The candidate does not divide what was combined before it.
      by_cases same : p = d
      · subst same
        have fresh : ¬ p ∣ s.combined := fun divides =>
          absurd (sieved.combined p found divides).1 (lt_irrefl p)
        have coprime : Nat.Coprime (p ^ index) s.combined :=
          (found.coprime_iff_not_dvd.mpr fresh).pow_left index
        have power := coprime.dvd_of_dvd_mul_left divides
        have exponent := (Nat.pow_dvd_pow_iff_le_right found.one_lt).mp power
        exact absurd (Nat.mod_lt k (by omega : index > 0)) (by omega)
      · have coprime : Nat.Coprime (p ^ index) (d ^ (k % index)) :=
          Nat.Coprime.pow _ _ ((Nat.coprime_primes found prime).mpr same)
        exact sieved.free p found (coprime.dvd_of_dvd_mul_right divides)

theorem trialDivision_sieved (fuel : Nat) (enough : divisionLimit < d + fuel) (proper : 2 ≤ index)
    (candidate : 2 ≤ d) (positive : 0 < rest) (sieved : Sieved index d rest s) :
    ∃ d', Sieved index d' (trialDivision index fuel d rest s).2
        (trialDivision index fuel d rest s).1 ∧
      (divisionLimit < d' ∨ (trialDivision index fuel d rest s).2 < d' * d') := by
  induction fuel generalizing d rest s with
  | zero => exact ⟨d, sieved, .inl enough⟩
  | succ fuel ih =>
    rw [trialDivision]
    split
    · rename_i goes
      have power := divideOut_product d (rest.log2 + 1) rest
      have out : ¬ d ∣ (divideOut d (rest.log2 + 1) rest).1 :=
        divideOut_exact candidate positive (Nat.lt_succ_self rest.log2)
      generalize divideOut d (rest.log2 + 1) rest = divided at power out ⊢
      obtain ⟨rest', k⟩ := divided
      dsimp only at power out ⊢
      have positive' : 0 < rest' := by
        refine Nat.pos_of_ne_zero fun zero => out ?_
        rw [zero]
        exact Nat.dvd_zero d
      have factor : rest' ∣ rest := power ▸ Nat.dvd_mul_left _ _
      obtain ⟨parity, rough⟩ := next_candidate sieved.parity candidate sieved.rough factor out
      have later : d < if d = 2 then 3 else d + 2 := by split <;> omega
      generalize (if d = 2 then 3 else d + 2) = next at later parity rough ⊢
      refine ih (by omega) (by omega) positive' ?_
      split
      · exact { sieved with
          parity, rough
          combined := fun p found divides =>
            ⟨(sieved.combined p found divides).1.trans later, (sieved.combined p found divides).2⟩ }
      · rename_i found
        have divides : d ∣ rest := power ▸ Dvd.dvd.mul_right (dvd_pow_self d found) _
        exact sieved.takePrime proper goes.1 (sieved.prime candidate divides) later parity rough
    · rename_i stops
      refine ⟨d, sieved, ?_⟩
      omega

/-! ## What is left -/

/-- All prime factors are candidates of trial division. -/
def Small (m : Nat) : Prop := ∀ p, p.Prime → p ∣ m → p ≤ divisionLimit

/-- No prime factor is a candidate of trial division. -/
def Large (m : Nat) : Prop := ∀ p, p.Prime → p ∣ m → divisionLimit < p

theorem coprime_of_small {a b : Nat} (small : Small a) (large : Large b) : Nat.Coprime a b :=
  Nat.coprime_of_dvd fun p prime left right =>
    absurd (large p prime right) (small p prime left).not_gt

theorem Large.pow (large : Large r) (k : Nat) : Large (r ^ k) := fun p prime divides =>
  large p prime (prime.dvd_of_dvd_pow divides)

theorem eq_one_of_pow_dvd {p : Nat} (prime : p.Prime) (proper : 2 ≤ k) (divides : r ^ k ∣ p) :
    r = 1 := by
  rcases (Nat.dvd_prime prime).mp divides with one | same
  · exact (Nat.pow_eq_one.mp one).resolve_right (by omega)
  · rw [← same] at prime
    exact absurd prime (Nat.Prime.not_prime_pow proper)

/-- What trial division leaves of `n`. -/
structure Divided (index n rest : Nat) (s : Split) : Prop where
  product : n = s.outside ^ index * (s.inside.prod * s.combined) * rest
  positive : 0 < rest
  apart : index = 2 ∧ s.combined = 1 ∨ index ≠ 2 ∧ s.inside = []
  outside : Small s.outside
  inside : ∀ p ∈ s.inside, p.Prime ∧ p ≤ divisionLimit
  combined : Small s.combined
  free : ∀ p, p.Prime → ¬ p ^ index ∣ s.combined
  coprime : Nat.Coprime s.combined rest
  cofactor : rest.Prime ∨ Large rest

/-- A cofactor without divisors below `d` is prime or has only large factors. -/
theorem prime_or_large (rough : ∀ m, 2 ≤ m → m < d → ¬ m ∣ rest) (positive : 0 < rest)
    (stopped : divisionLimit < d ∨ rest < d * d) : rest.Prime ∨ Large rest := by
  have factors : ∀ p, p.Prime → p ∣ rest → d ≤ p := fun p prime divides =>
    Nat.le_of_not_lt fun below => rough p prime.two_le below divides
  rcases stopped with limit | small
  · exact .inr fun p prime divides => limit.trans_le (factors p prime divides)
  by_cases one : rest = 1
  · exact .inr fun p prime divides => absurd (one ▸ divides) prime.not_dvd_one
  refine .inl (not_not.mp fun composite => ?_)
  have square := Nat.minFac_sq_le_self positive composite
  have least := factors _ (Nat.minFac_prime one) (Nat.minFac_dvd rest)
  exact absurd (Nat.mul_le_mul least least) (by rw [← Nat.pow_two rest.minFac]; omega)

theorem trialDivision_divided (proper : 2 ≤ index) (positive : 0 < n) :
    Divided index n (trialDivision index divisionLimit 2 n ⟨1, [], 1⟩).2
      (trialDivision index divisionLimit 2 n ⟨1, [], 1⟩).1 := by
  have start : Splits index n 2 n ⟨1, [], 1⟩ :=
    ⟨by simp, List.nodup_nil, by simp, by simp, by simp, by simpa using eq_or_ne index 2⟩
  have sieve : Sieved index 2 n ⟨1, [], 1⟩ := by
    refine ⟨.inl rfl, by omega, fun p prime divides => absurd divides prime.not_dvd_one, by simp,
      fun p prime divides => absurd divides prime.not_dvd_one, fun p prime divides => ?_⟩
    exact prime.not_dvd_one ((dvd_pow_self p (by omega)).trans divides)
  obtain ⟨_, left, splits⟩ := trialDivision_splits divisionLimit le_rfl positive start
  obtain ⟨d, sieved, stopped⟩ :=
    trialDivision_sieved divisionLimit (by omega) proper le_rfl positive sieve
  refine ⟨splits.product, left, splits.apart, sieved.outside, sieved.inside,
    fun p prime divides => (sieved.combined p prime divides).2, sieved.free, ?_,
    prime_or_large sieved.rough left stopped⟩
  exact Nat.coprime_of_dvd fun p prime before after =>
    sieved.rough p prime.two_le (sieved.combined p prime before).1 after

/-- The radicands of a split. -/
def Split.radicands (s : Split) : List Nat :=
  if 1 < s.combined then s.inside ++ [s.combined] else s.inside

/-- A root is split by trial division, and the cofactor is taken out, or stays
under the root. -/
theorem integerRoot_cases (proper : 2 ≤ index) (positive : 0 < n) :
    ∃ s rest, Divided index n rest s ∧
      (rest = 1 ∧ integerRoot n index = (s.outside, s.radicands) ∨
        (∃ r, 1 < r ∧ rest = r ^ index ∧ integerRoot n index = (s.outside * r, s.radicands)) ∨
        1 < rest ∧ (∀ r, r ^ index ≠ rest) ∧ integerRoot n index = (s.outside,
          if index = 2 then s.inside ++ [rest] else [s.combined * rest])) := by
  have divided := trialDivision_divided proper positive
  have result : integerRoot n index =
      (let t := trialDivision index divisionLimit 2 n ⟨1, [], 1⟩
      ((t.1.takeCofactor index t.2).outside, (t.1.takeCofactor index t.2).radicands)) := rfl
  refine ⟨_, _, divided, ?_⟩
  rw [result]
  generalize trialDivision index divisionLimit 2 n ⟨1, [], 1⟩ = t at divided ⊢
  obtain ⟨s, rest⟩ := t
  have left := divided.positive
  dsimp only at divided left ⊢
  unfold Split.takeCofactor
  split
  · exact .inl ⟨by omega, rfl⟩
  rename_i large
  dsimp only [Nat.pow_eq]
  split
  · rename_i power
    refine .inr (.inl ⟨floorRoot rest index, ?_, power.symm, rfl⟩)
    by_contra small
    have bound := Nat.pow_le_pow_left (Nat.le_of_not_lt small) index
    rw [power, Nat.one_pow] at bound
    exact large bound
  rename_i unlike
  refine .inr (.inr ⟨by omega, fun r power => unlike ?_, ?_⟩)
  · have nonzero : 0 < r := by
      refine Nat.pos_of_ne_zero fun zero => ?_
      rw [zero, Nat.zero_pow (by omega)] at power
      omega
    rw [← power, floorRoot_pow (by omega) nonzero]
  rcases divided.apart with ⟨two, one⟩ | ⟨other, alone⟩
  · rw [if_pos two, if_pos two, Split.radicands, if_neg (by dsimp only; omega)]
  · have above : 1 < s.combined * rest := by
      have nonzero : s.combined ≠ 0 := fun zero =>
        divided.free 2 Nat.prime_two (zero ▸ Nat.dvd_zero _)
      have := Nat.le_mul_of_pos_left rest (Nat.pos_of_ne_zero nonzero)
      omega
    rw [if_neg other, if_neg other, Split.radicands, if_pos above, alone]
    rfl

/-! ## Radicands that are not split -/

/-- No power is found in the number, and under a square root no prime either. -/
structure Unsplit (index m : Nat) : Prop where
  small : ∀ p, p.Prime → p ≤ divisionLimit → ¬ p ^ index ∣ m
  large : ∀ a r, m = a * r ^ index → Small a → Large r → r = 1
  single : index = 2 → Large m

/-- A number that is free of powers of small primes, times a cofactor that is
prime, or large and no power. -/
theorem unsplit_mul {a b : Nat} (proper : 2 ≤ index) (small : Small a)
    (free : ∀ p, p.Prime → ¬ p ^ index ∣ a) (coprime : Nat.Coprime a b) (positive : 0 < b)
    (cofactor : b.Prime ∨ Large b ∧ ∀ r, 1 < r → r ^ index ≠ b)
    (single : index = 2 → Large (a * b)) : Unsplit index (a * b) := by
  refine ⟨fun p prime bounded divides => ?_, fun c r product small' large => ?_, single⟩
  · by_cases inside : p ∣ b
    · rcases cofactor with other | ⟨large, -⟩
      · have same := (Nat.prime_dvd_prime_iff_eq prime other).mp inside
        subst same
        have power := (coprime.symm.pow_left index).dvd_of_dvd_mul_left divides
        exact prime.ne_one (eq_one_of_pow_dvd prime proper power)
      · exact absurd (large p prime inside) bounded.not_gt
    · have apart := (prime.coprime_iff_not_dvd.mpr inside).pow_left index
      exact free p prime (apart.dvd_of_dvd_mul_right divides)
  · have apart : Nat.Coprime (r ^ index) a := (coprime_of_small small (large.pow index)).symm
    have divides : r ^ index ∣ b :=
      apart.dvd_of_dvd_mul_left (product ▸ Nat.dvd_mul_left (r ^ index) c)
    rcases cofactor with prime | ⟨large', unlike⟩
    · exact eq_one_of_pow_dvd prime proper divides
    have apart' : Nat.Coprime b c := (coprime_of_small small' large').symm
    have divides' : b ∣ r ^ index :=
      apart'.dvd_of_dvd_mul_left (product ▸ Nat.dvd_mul_left b a)
    have power := Nat.dvd_antisymm divides divides'
    have nonzero : r ≠ 0 := by
      rintro rfl
      rw [Nat.zero_pow (by omega)] at power
      omega
    by_contra different
    exact unlike r (by omega) power

/-- Nothing is taken out of the root, and the radicand stays whole. -/
theorem Unsplit.integerRoot_eq {m : Nat} (unsplit : Unsplit index m) (proper : 2 ≤ index)
    (above : 1 < m) : integerRoot m index = (1, [m]) := by
  obtain ⟨s, rest, divided, cases⟩ := integerRoot_cases proper (by omega : 0 < m)
  have product := divided.product
  have outside : s.outside = 1 := by
    refine Nat.eq_one_iff_not_exists_prime_dvd.mpr fun p prime divides => ?_
    refine unsplit.small p prime (divided.outside p prime divides) ?_
    rw [product, Nat.mul_assoc]
    exact (pow_dvd_pow_of_dvd divides index).mul_right _
  rw [outside, Nat.one_pow, Nat.one_mul] at product
  have inside : index = 2 → s.inside = [] := by
    intro two
    refine List.eq_nil_iff_forall_not_mem.mpr fun p member => ?_
    obtain ⟨prime, bounded⟩ := divided.inside p member
    have divides : p ∣ m := by
      rw [product, Nat.mul_assoc]
      exact (List.dvd_prod member).mul_right _
    exact absurd (unsplit.single two p prime divides) bounded.not_gt
  have alone : s.inside = [] := divided.apart.elim (fun two => inside two.1) fun other => other.2
  rw [alone, List.prod_nil, Nat.one_mul] at product
  rcases cases with ⟨one, result⟩ | ⟨r, proper', power, -⟩ | ⟨-, -, result⟩
  · rw [one, Nat.mul_one] at product
    rw [result, outside, Split.radicands, alone, ← product, if_pos above, List.nil_append]
  · have large : Large r := by
      refine fun p prime divides => divided.cofactor.elim (fun impossible => ?_) fun large =>
        large p prime (power ▸ divides.trans (dvd_pow_self r (by omega)))
      rw [power] at impossible
      exact absurd impossible (Nat.Prime.not_prime_pow proper)
    rw [power] at product
    exact absurd (unsplit.large _ r product divided.combined large) (by omega)
  · rw [result, outside, alone]
    rcases divided.apart with ⟨two, one⟩ | ⟨other, -⟩
    · rw [one, Nat.one_mul] at product
      rw [if_pos two, product, List.nil_append]
    · rw [if_neg other, product]

theorem integerRoot_of_prime {p : Nat} (prime : p.Prime) (proper : 2 ≤ index) :
    integerRoot p index = (1, [p]) := by
  obtain ⟨product, -, above⟩ := integerRoot_split index prime.pos
  have outside : (integerRoot p index).1 = 1 :=
    eq_one_of_pow_dvd prime proper ⟨_, product⟩
  generalize integerRoot p index = root at product above outside ⊢
  obtain ⟨o, ps⟩ := root
  dsimp only at product above outside
  rw [outside, Nat.one_pow, Nat.one_mul] at product
  rw [outside]
  cases ps with
  | nil => exact absurd product prime.ne_one
  | cons q qs =>
    obtain ⟨first, others⟩ := List.forall_mem_cons.mp above
    rw [List.prod_cons] at product
    obtain rfl : q = p :=
      ((Nat.dvd_prime prime).mp ⟨_, product⟩).resolve_left (by omega)
    have one : qs.prod = 1 := Nat.eq_of_mul_eq_mul_left prime.pos (by omega)
    cases qs with
    | nil => rfl
    | cons q' qs =>
      rw [List.prod_cons] at one
      have second := (List.forall_mem_cons.mp others).1
      have := Nat.eq_one_of_mul_eq_one_right one
      omega

/-- What a root is split into is prime, or not split again. -/
theorem radicand_prime_or_unsplit (proper : 2 ≤ index) (positive : 0 < n) :
    ∀ p ∈ (integerRoot n index).2, p.Prime ∨ Unsplit index p := by
  obtain ⟨s, rest, divided, cases⟩ := integerRoot_cases proper positive
  have found : ∀ p ∈ s.radicands, p.Prime ∨ Unsplit index p := by
    intro p member
    unfold Split.radicands at member
    have old : p ∈ s.inside → p.Prime ∨ Unsplit index p := fun inside =>
      .inl (divided.inside p inside).1
    split at member
    · rename_i combined
      rcases List.mem_append.mp member with inside | last
      · exact old inside
      · rw [List.mem_singleton.mp last, ← Nat.mul_one s.combined]
        refine .inr (unsplit_mul proper divided.combined divided.free (Nat.coprime_one_right _)
          one_pos (.inr ⟨fun q prime divides => absurd divides prime.not_dvd_one, ?_⟩) ?_)
        · exact fun r above power => above.ne' (by simpa [show index ≠ 0 by omega] using power)
        · intro two
          have one : s.combined = 1 := by simpa [two] using divided.apart
          omega
    · exact old member
  rcases cases with ⟨-, result⟩ | ⟨r, -, -, result⟩ | ⟨above, unlike, result⟩
  · rwa [result]
  · rwa [result]
  rw [result]
  have cofactor : rest.Prime ∨ Large rest ∧ ∀ r, 1 < r → r ^ index ≠ rest :=
    divided.cofactor.imp id fun large => ⟨large, fun r _ => unlike r⟩
  intro p member
  dsimp only at member
  split at member
  · rename_i two
    rcases List.mem_append.mp member with inside | last
    · exact .inl (divided.inside p inside).1
    · rw [List.mem_singleton.mp last]
      rcases divided.cofactor with prime | large
      · exact .inl prime
      · have one : s.combined = 1 := by simpa [two] using divided.apart
        have whole := unsplit_mul proper divided.combined divided.free divided.coprime (by omega)
          cofactor fun _ => by rwa [one, Nat.one_mul]
        rw [one, Nat.one_mul] at whole
        exact .inr whole
  · rename_i other
    rw [List.mem_singleton.mp member]
    exact .inr (unsplit_mul proper divided.combined divided.free divided.coprime (by omega) cofactor
      fun two => absurd two other)

/-- What a root is split into is not split again. -/
theorem integerRoot_radicand (proper : 2 ≤ index) (positive : 0 < n) :
    ∀ p ∈ (integerRoot n index).2, integerRoot p index = (1, [p]) := by
  intro p member
  rcases radicand_prime_or_unsplit proper positive p member with prime | unsplit
  · exact integerRoot_of_prime prime proper
  · exact unsplit.integerRoot_eq proper ((integerRoot_split index positive).2.2 p member)

/-- The radicands of the square root of a number that trial division factors
altogether are prime. -/
theorem radicand_prime (positive : 0 < n) (small : n ≤ divisionLimit ^ 2) :
    ∀ p ∈ (integerRoot n 2).2, p.Prime := by
  obtain ⟨s, rest, divided, cases⟩ := integerRoot_cases le_rfl positive
  have one : s.combined = 1 := by simpa using divided.apart
  have found : ∀ p ∈ s.inside, p.Prime := fun p member => (divided.inside p member).1
  have radicands : s.radicands = s.inside := by rw [Split.radicands, if_neg (by omega)]
  rcases cases with ⟨-, result⟩ | ⟨r, -, -, result⟩ | ⟨above, -, result⟩
  · rwa [result, radicands]
  · rwa [result, radicands]
  · rw [result, if_pos rfl]
    refine List.forall_mem_append.mpr ⟨found, ?_⟩
    rw [List.forall_mem_singleton]
    refine divided.cofactor.elim id fun large => not_not.mp fun composite => ?_
    have square := Nat.minFac_sq_le_self divided.positive composite
    have factor := large _ (Nat.minFac_prime (by omega)) (Nat.minFac_dvd rest)
    have below : rest ≤ n := Nat.le_of_dvd positive ⟨_, by rw [divided.product, Nat.mul_comm]⟩
    have bound := Nat.pow_lt_pow_left factor two_ne_zero
    omega

end Discharge.Radical
