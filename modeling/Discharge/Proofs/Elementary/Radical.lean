import Mathlib.Algebra.BigOperators.Ring.List
import Mathlib.Algebra.Order.BigOperators.GroupWithZero.List
import Mathlib.Data.Rat.Cast.Lemmas
import Mathlib.Tactic.Positivity
import Discharge.Proofs.Elementary.Values

/-! Square roots of rationals. Trial division splits a positive integer into a
square and radicands that are different from each other; the radical that is
built from them has the square root as its value under every elementary
interpretation. -/

namespace Discharge

namespace Radical

/-! ## Trial division -/

theorem divideOut_product (d fuel n : Nat) :
    n = d ^ (divideOut d fuel n).2 * (divideOut d fuel n).1 := by
  induction fuel generalizing n with
  | zero => simp [divideOut]
  | succ fuel ih =>
    rw [divideOut]
    split
    · rename_i divides
      have quotient := ih (n / d)
      dsimp only
      rw [Nat.pow_succ', Nat.mul_assoc, ← quotient]
      exact (Nat.mul_div_cancel' (Nat.dvd_of_mod_eq_zero divides)).symm
    · simp

/-- With enough fuel, the factor is divided out altogether. -/
theorem divideOut_exact {d fuel n : Nat} (proper : 2 ≤ d) (positive : 0 < n)
    (enough : n.log2 < fuel) : ¬ d ∣ (divideOut d fuel n).1 := by
  induction fuel generalizing n with
  | zero => omega
  | succ fuel ih =>
    rw [divideOut]
    split
    · rename_i divides
      have multiple := Nat.dvd_of_mod_eq_zero divides
      have above : d ≤ n := Nat.le_of_dvd positive multiple
      have quotient : 0 < n / d := Nat.div_pos above (by omega)
      -- The logarithm falls with every division.
      have halved : n / d ≤ n / 2 := Nat.div_le_div_left proper (by omega)
      have smaller : (n / d).log2 < n.log2 := by
        rw [Nat.log2_lt quotient.ne']
        have bound : n < 2 ^ (n.log2 + 1) := Nat.lt_log2_self
        rw [Nat.pow_succ] at bound
        omega
      exact ih quotient (by omega)
    · rename_i remainder
      intro divides
      exact remainder (Nat.mod_eq_zero_of_dvd divides)

/-- What is known of a split of `n` before the candidate `d`: the radicands are
different, smaller than `d`, and no divisors of the cofactor.  Square roots have
no combined radicand, and other roots have no other. -/
structure Splits (index n d rest : Nat) (s : Split) : Prop where
  product : n = s.outside ^ index * (s.inside.prod * s.combined) * rest
  distinct : s.inside.Nodup
  proper : ∀ p ∈ s.inside, 1 < p
  below : ∀ p ∈ s.inside, p < d
  free : ∀ p ∈ s.inside, ¬ p ∣ rest
  apart : index = 2 ∧ s.combined = 1 ∨ index ≠ 2 ∧ s.inside = []

variable {index n d rest : Nat} {s : Split}

/-- Dividing out a candidate keeps the split. -/
theorem Splits.takePrime (splits : Splits index n d rest s) {rest' k : Nat} (candidate : 2 ≤ d)
    (power : rest = d ^ k * rest') (out : ¬ d ∣ rest') {d' : Nat} (later : d < d') :
    Splits index n d' rest' (s.takePrime index d k) := by
  have free : ∀ p ∈ s.inside, ¬ p ∣ rest' := fun p member divides =>
    splits.free p member (divides.trans ⟨d ^ k, by rw [power, Nat.mul_comm]⟩)
  have below : ∀ p ∈ s.inside, p < d' := fun p member => (splits.below p member).trans later
  have parts : d ^ k = (d ^ (k / index)) ^ index * d ^ (k % index) := by
    rw [← Nat.pow_mul, ← Nat.pow_add, Nat.mul_comm, Nat.div_add_mod]
  have whole := splits.product
  rw [power, parts] at whole
  unfold Split.takePrime
  dsimp only
  split
  · rename_i even
    rw [even, Nat.pow_zero, Nat.mul_one] at whole
    refine ⟨?_, splits.distinct, splits.proper, below, free, splits.apart⟩
    simp only [Nat.pow_eq]
    rw [whole]
    ring
  rename_i left
  split
  · rename_i two
    subst two
    have one : k % 2 = 1 := by omega
    have combined : s.combined = 1 := by simpa using splits.apart
    rw [one, Nat.pow_one] at whole
    refine ⟨?_, ?_, fun p member => ?_, fun p member => ?_, fun p member => ?_,
      .inl ⟨rfl, combined⟩⟩
    · simp only [Nat.pow_eq, List.prod_append, List.prod_singleton]
      rw [whole]
      ring
    · refine List.nodup_append.mpr ⟨splits.distinct, List.nodup_singleton d, ?_⟩
      intro p old q new
      rw [List.mem_singleton.mp new]
      exact (splits.below p old).ne
    · rcases List.mem_append.mp member with old | new
      · exact splits.proper p old
      · rw [List.mem_singleton.mp new]
        omega
    · rcases List.mem_append.mp member with old | new
      · exact below p old
      · rwa [List.mem_singleton.mp new]
    · rcases List.mem_append.mp member with old | new
      · exact free p old
      · rwa [List.mem_singleton.mp new]
  · rename_i other
    have alone : s.inside = [] := by simpa [other] using splits.apart
    refine ⟨?_, splits.distinct, splits.proper, below, free, .inr ⟨other, alone⟩⟩
    simp only [Nat.pow_eq]
    rw [whole]
    ring

theorem trialDivision_splits (fuel : Nat) (candidate : 2 ≤ d) (positive : 0 < rest)
    (splits : Splits index n d rest s) :
    ∃ d', 0 < (trialDivision index fuel d rest s).2 ∧
      Splits index n d' (trialDivision index fuel d rest s).2
        (trialDivision index fuel d rest s).1 := by
  induction fuel generalizing d rest s with
  | zero => exact ⟨d, positive, splits⟩
  | succ fuel ih =>
    rw [trialDivision]
    split
    · have power := divideOut_product d (rest.log2 + 1) rest
      have out : ¬ d ∣ (divideOut d (rest.log2 + 1) rest).1 :=
        divideOut_exact candidate positive (Nat.lt_succ_self rest.log2)
      have positive' : 0 < (divideOut d (rest.log2 + 1) rest).1 := by
        refine Nat.pos_of_ne_zero fun zero => out ?_
        rw [zero]
        exact Nat.dvd_zero d
      have later : d < if d = 2 then 3 else d + 2 := by split <;> omega
      generalize (if d = 2 then 3 else d + 2) = next at later ⊢
      generalize divideOut d (rest.log2 + 1) rest = divided at power out positive' ⊢
      obtain ⟨rest', k⟩ := divided
      refine ih (by omega) positive' ?_
      dsimp only at power out ⊢
      split
      · rename_i none
        rw [none, Nat.pow_zero, Nat.one_mul] at power
        rw [← power]
        exact { splits with below := fun p member => (splits.below p member).trans later }
      · exact splits.takePrime candidate power out later
    · exact ⟨d, positive, splits⟩

/-- Taking the cofactor into account completes the split. -/
theorem Splits.takeCofactor (splits : Splits index n d rest s) (positive : 0 < rest) :
    ∃ d', Splits index n d' 1 (s.takeCofactor index rest) := by
  have product := splits.product
  have free : ∀ p ∈ s.inside, ¬ p ∣ 1 := fun p member divides =>
    absurd (splits.proper p member) (by rw [Nat.dvd_one.mp divides]; omega)
  unfold Split.takeCofactor
  split
  · have one : rest = 1 := by omega
    subst one
    exact ⟨d, splits⟩
  rename_i large
  dsimp only
  split
  · rename_i power
    refine ⟨d, ?_, splits.distinct, splits.proper, splits.below, free, splits.apart⟩
    rw [← power, Nat.pow_eq] at product
    rw [product]
    ring
  split
  · rename_i two
    have combined : s.combined = 1 := by simpa [two] using splits.apart
    refine ⟨max d (rest + 1), ?_, ?_, ?_, ?_, ?_, .inl ⟨two, combined⟩⟩
    · rw [product, List.prod_append, List.prod_singleton]
      ring
    · refine List.nodup_append.mpr ⟨splits.distinct, List.nodup_singleton rest, ?_⟩
      intro p old q new same
      rw [List.mem_singleton.mp new] at same
      exact splits.free p old (same ▸ Nat.dvd_refl rest)
    all_goals
      refine List.forall_mem_append.mpr ⟨?_, fun p new => ?_⟩
    · exact splits.proper
    · rw [List.mem_singleton.mp new]
      omega
    · exact fun p old => lt_max_of_lt_left (splits.below p old)
    · rw [List.mem_singleton.mp new]
      omega
    · exact free
    · rw [List.mem_singleton.mp new, Nat.dvd_one]
      omega
  · rename_i other
    have alone : s.inside = [] := by simpa [other] using splits.apart
    refine ⟨d, ?_, splits.distinct, splits.proper, splits.below, free, .inr ⟨other, alone⟩⟩
    dsimp only
    rw [product]
    ring

/-- The split of a root: a power, and different radicands other than one. -/
theorem integerRoot_split (index : Nat) (positive : 0 < n) :
    n = (integerRoot n index).1 ^ index * (integerRoot n index).2.prod ∧
      (integerRoot n index).2.Nodup ∧ ∀ p ∈ (integerRoot n index).2, 1 < p := by
  have start : Splits index n 2 n ⟨1, [], 1⟩ :=
    ⟨by simp, List.nodup_nil, by simp, by simp, by simp, by simpa using eq_or_ne index 2⟩
  obtain ⟨d, positive', splits⟩ := trialDivision_splits divisionLimit le_rfl positive start
  obtain ⟨d', final⟩ := splits.takeCofactor positive'
  have product := final.product
  rw [Nat.mul_one] at product
  unfold integerRoot
  dsimp only
  split
  · rename_i combined
    rcases final.apart with ⟨-, one⟩ | ⟨-, alone⟩
    · omega
    · rw [alone, List.nil_append]
      rw [alone, List.prod_nil, Nat.one_mul] at product
      exact ⟨by rwa [List.prod_singleton], List.nodup_singleton _, by simpa using combined⟩
  · rename_i none
    generalize (trialDivision index divisionLimit 2 n ⟨1, [], 1⟩).1.takeCofactor index
      (trialDivision index divisionLimit 2 n ⟨1, [], 1⟩).2 = t at none product final ⊢
    have one : t.combined = 1 := by
      have nonzero : t.combined ≠ 0 := by
        intro zero
        rw [zero, Nat.mul_zero, Nat.mul_zero] at product
        omega
      omega
    rw [one, Nat.mul_one] at product
    exact ⟨product, final.distinct, final.proper⟩

/-! ## Radicands of rationals -/

theorem radicand_pos {c : ℚ} (positive : 0 < c) (k : Nat) :
    0 < c.num.natAbs * Nat.pow c.den (k - 1) := by
  have numerator := Rat.num_pos.mpr positive
  exact Nat.mul_pos (by omega) (Nat.pow_pos c.den_pos)

/-- The radicand of a rational is the rational times a power of its denominator. -/
theorem radicand_eq {c : ℚ} (positive : 0 < c) {k : Nat} (proper : k ≠ 0) :
    ((c.num.natAbs * Nat.pow c.den (k - 1) : ℕ) : ℚ) = c * c.den ^ k := by
  have absolute : ((c.num.natAbs : ℕ) : ℚ) = c * c.den := by
    rw [Nat.cast_natAbs, abs_of_pos (Rat.num_pos.mpr positive), Rat.mul_den_eq_num]
  obtain ⟨j, rfl⟩ := Nat.exists_eq_succ_of_ne_zero proper
  rw [Nat.cast_mul, absolute, Nat.pow_eq, Nat.cast_pow, Nat.succ_sub_one, pow_succ]
  ring

end Radical

/-! ## Products of roots -/

theorem Poly.constant_injective {c d : ℚ} (same : Poly.constant c = .constant d) : c = d := by
  have left := Poly.constant?_constant c
  rw [same, Poly.constant?_constant] at left
  exact (Option.some.inj left).symm

/-- The product of the roots of different radicands. -/
theorem Valuation.radicands_value {A : Type*} [CommRing A] [Algebra ℚ A] {v : Valuation A}
    {index : Nat} (ns : List Nat) (known : ∀ n ∈ ns, v.known (.root (.constant (n : Nat)) index))
    (distinct : ns.Nodup) {fs : List (Atom × Int)} (admitted : v.Admits ⟨fs, .zero⟩)
    (absent : ∀ n ∈ ns, ∀ f ∈ fs, f.1 ≠ .root (.constant (n : Nat)) index) :
    let gs := ns.foldl (fun fs r => Monomial.setCount (.root (.constant (r : Nat)) index) 1 fs) fs
    v.Admits ⟨gs, .zero⟩ ∧
      v.monomial ⟨gs, .zero⟩ = v.monomial ⟨fs, .zero⟩ *
        (ns.map fun n : Nat => v.atom (.root (.constant (n : Nat)) index)).prod := by
  induction ns generalizing fs with
  | nil => exact ⟨admitted, by simp⟩
  | cons n ns ih =>
    obtain ⟨head, tail⟩ := List.forall_mem_cons.mp known
    obtain ⟨fresh, distinct⟩ := List.nodup_cons.mp distinct
    obtain ⟨missing, absent⟩ := List.forall_mem_cons.mp absent
    obtain ⟨admitted', product⟩ := admitted.setCount missing head
    have later : ∀ k ∈ ns, ∀ f ∈ Monomial.setCount (.root (.constant (n : Nat)) index) 1 fs,
        f.1 ≠ .root (.constant (k : Nat)) index := by
      intro k member f factor same
      rcases Monomial.mem_setCount factor with rfl | old
      · have equal := Poly.constant_injective (Atom.root.inj same).1
        have equal' : n = k := by exact_mod_cast equal
        exact fresh (equal' ▸ member)
      · exact absent k member f old same
    obtain ⟨final, whole⟩ := ih tail distinct admitted' later
    refine ⟨final, whole.trans ?_⟩
    rw [product, List.map_cons, List.prod_cons]
    ring

/-- The radical of a positive integer is the product of what was split off and
the roots of the radicands. -/
theorem Valuation.integerRadical_value {A : Type*} [CommRing A] [Algebra ℚ A] {v : Valuation A}
    {n index : Nat} (positive : 0 < n)
    (known : ∀ p ∈ (Radical.integerRoot n index).2, v.known (.root (.constant (p : Nat)) index)) :
    v.AdmitsPoly (.integerRadical n index) ∧
      v.poly (.integerRadical n index) = algebraMap ℚ A (Radical.integerRoot n index).1 *
        ((Radical.integerRoot n index).2.map fun p : Nat =>
          v.atom (.root (.constant (p : Nat)) index)).prod := by
  have distinct := (Radical.integerRoot_split index positive).2.1
  have empty : v.Admits ⟨[], .zero⟩ := .one
  obtain ⟨admitted, value⟩ := Valuation.radicands_value _ known distinct empty (by simp)
  have one : v.monomial ⟨[], .zero⟩ = 1 := v.monomial_one
  refine ⟨.term admitted _, ?_⟩
  rw [Poly.integerRadical]
  dsimp only
  rw [poly_term, value, one, one_mul]

/-! ## Square roots -/

variable {K : Type*} [Field K] [CharZero K] {I : Interpretation K}

namespace Interpretation.Elementary

variable (elementary : I.Elementary) {v : Valuation K}

include elementary

omit [CharZero K] in
theorem sqrt_one : I.apply .sqrt (1 : K) = 1 := by
  simpa using elementary.sqrt_square 1

theorem sqrt_list (ns : List Nat) (positive : ∀ n ∈ ns, 0 < n) :
    I.apply .sqrt (ns.prod : K) = (ns.map fun n : Nat => I.apply .sqrt (n : K)).prod := by
  induction ns with
  | nil => simpa using elementary.sqrt_one
  | cons n ns ih =>
    obtain ⟨head, tail⟩ := List.forall_mem_cons.mp positive
    have product := elementary.sqrt_mul n ns.prod (by exact_mod_cast head)
      (by exact_mod_cast List.prod_pos tail)
    simp only [Rat.cast_mul, Rat.cast_natCast] at product
    rw [List.prod_cons, List.map_cons, List.prod_cons, ← ih tail, ← product, Nat.cast_mul]

theorem integerRadical_value (atoms : v.atom = Atom.value I)
    (known : v.known = Atom.IsElementary) {n : Nat} (positive : 0 < n) :
    v.AdmitsPoly (.integerRadical n 2) ∧
      v.poly (.integerRadical n 2) = I.apply .sqrt (n : K) := by
  obtain ⟨product, -, proper⟩ := Radical.integerRoot_split 2 positive
  have listed : ∀ p ∈ (Radical.integerRoot n 2).2, v.known (.root (.constant (p : Nat)) 2) := by
    intro p member
    have positive' : 0 < p := lt_trans one_pos (proper p member)
    rw [known]
    exact ⟨rfl, p, by exact_mod_cast positive', rfl⟩
  obtain ⟨admitted, value⟩ := Valuation.integerRadical_value positive listed
  refine ⟨admitted, value.trans ?_⟩
  have each : ∀ p ∈ (Radical.integerRoot n 2).2, 0 < p := fun p member =>
    lt_trans one_pos (proper p member)
  have roots : ∀ p : Nat, v.atom (.root (.constant (p : Nat)) 2) = I.apply .sqrt (p : K) := by
    intro p
    rw [atoms, value_root_constant elementary, Rat.cast_natCast]
  simp only [roots]
  generalize Radical.integerRoot n 2 = root at product each ⊢
  obtain ⟨outside, inside⟩ := root
  dsimp only at product each ⊢
  have square : 0 < outside := by
    refine Nat.pos_of_ne_zero fun zero => positive.ne' ?_
    rw [product, zero, Nat.zero_pow (by decide), Nat.zero_mul]
  have rest : 0 < inside.prod := List.prod_pos each
  have whole := elementary.sqrt_mul (outside ^ 2) inside.prod (by positivity)
    (by exact_mod_cast rest)
  rw [elementary.sqrt_square, Nat.abs_cast] at whole
  simp only [Rat.cast_mul, Rat.cast_pow, Rat.cast_natCast] at whole
  rw [← elementary.sqrt_list inside each, product, Nat.cast_mul, Nat.cast_pow, whole]
  simp

theorem positiveRadical_value (atoms : v.atom = Atom.value I)
    (known : v.known = Atom.IsElementary) {q : ℚ} (positive : 0 < q) :
    v.AdmitsPoly (.positiveRadical q 2) ∧
      v.poly (.positiveRadical q 2) = I.apply .sqrt (q : K) := by
  have denominator : (q.den : K) ≠ 0 := Nat.cast_ne_zero.mpr q.den_nz
  obtain ⟨admitted, value⟩ := elementary.integerRadical_value atoms known
    (Radical.radicand_pos positive 2) (v := v)
  refine ⟨admitted.scale _, ?_⟩
  -- The radicand is the rational times the square of its denominator.
  have root : I.apply .sqrt ((q.num.natAbs * Nat.pow q.den (2 - 1) : ℕ) : K) =
      I.apply .sqrt (q : K) * q.den := by
    have whole := elementary.sqrt_mul q (q.den ^ 2) positive (by positivity)
    rw [elementary.sqrt_square] at whole
    rw [← Radical.radicand_eq positive two_ne_zero, Rat.cast_natCast, Nat.abs_cast, Rat.cast_natCast] at whole
    exact whole
  have unit : algebraMap ℚ K (mkRat 1 q.den) = (q.den : K)⁻¹ := by
    rw [Rat.mkRat_eq_div, eq_ratCast]
    simp
  unfold Poly.positiveRadical
  rw [Valuation.poly_scale, value, root, unit, mul_comm, mul_assoc, mul_inv_cancel₀ denominator,
    mul_one]

/-- The principal square root of a rational. -/
theorem rationalRadical_value (atoms : v.atom = Atom.value I)
    (known : v.known = Atom.IsElementary) (lawful : v.Lawful) (q : ℚ) :
    Ensures (Poly.rationalRadical q 2)
      (fun p => v.AdmitsPoly p ∧ v.poly p = I.apply .sqrt (q : K)) (Failure.IsRefusalIn K) := by
  unfold Poly.rationalRadical
  split
  · rename_i zero
    refine ⟨.zero, ?_⟩
    have root := elementary.sqrt_square 0
    rw [zero]
    simpa using root.symm
  split
  · rename_i negative
    obtain ⟨admitted, value⟩ := elementary.positiveRadical_value atoms known (neg_pos.mpr negative)
      (v := v)
    have imaginary : v.known .imaginary := by
      rw [known]
      trivial
    rw [if_pos rfl]
    refine (Valuation.mul_ensures lawful admitted (.ofAtom imaginary)).mono ?_
    rintro p ⟨final, product⟩
    refine ⟨final, ?_⟩
    have root := elementary.sqrt_neg (-q) (neg_pos.mpr negative)
    rw [neg_neg] at root
    rw [product, value, Valuation.poly_ofAtom, atoms, Atom.value, root, mul_comm]
  · rename_i nonzero nonneg
    have positive : 0 < q := lt_of_le_of_ne (not_lt.mp nonneg) (Ne.symm nonzero)
    exact elementary.positiveRadical_value atoms known positive

end Interpretation.Elementary

end Discharge
