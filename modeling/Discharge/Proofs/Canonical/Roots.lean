import Mathlib
import Discharge.Proofs.Canonical.Functions
import Discharge.Proofs.Canonical.Units

/-! Powers of roots. The radical of a rational is made of roots of radicands, and the
root of any other fraction of these and one more. Where the powers of all these roots
are the values of what they are roots of, the power of the root is the value of the
fraction. -/

namespace Discharge

variable {k max : Nat} {q : Rat} {r s : Fraction} {p : Poly}

/-! ## Radicals of rationals -/

namespace Poly

/-- The roots that the radical of a rational is made of. -/
def radicals (q : Rat) (k : Nat) : List Atom :=
  if q = 0 then []
  else (Radical.integerRoot (q.num.natAbs * Nat.pow q.den (k - 1)) k).2.map
    fun n => .root (constant (n : Nat)) k

theorem radicals_neg (q : Rat) (k : Nat) : radicals (-q) k = radicals q k := by
  unfold radicals
  rw [Rat.neg_num, Int.natAbs_neg, Rat.neg_den]
  simp only [neg_eq_zero]

theorem radicals_root {a : Atom} (member : a ∈ radicals q k) :
    ∃ n : Nat, a = .root (constant n) k := by
  unfold radicals at member
  split at member
  · exact absurd member List.not_mem_nil
  · obtain ⟨n, -, rfl⟩ := List.mem_map.mp member
    exact ⟨n, rfl⟩

theorem radicals_canonical (proper : 2 ≤ k) (fits : fitsInt64 k = true) (q : Rat) :
    ∀ a ∈ radicals q k, a.Canonical max := by
  intro a member
  unfold radicals at member
  split at member
  · exact absurd member List.not_mem_nil
  rename_i nonzero
  obtain ⟨n, inside, rfl⟩ := List.mem_map.mp member
  have positive : 0 < q.num.natAbs * Nat.pow q.den (k - 1) :=
    Nat.mul_pos (Int.natAbs_pos.mpr (Rat.num_ne_zero.mpr nonzero)) (Nat.pow_pos q.den_pos)
  exact Vocabulary.root_canonical proper fits
    (zero_lt_one.trans ((Radical.integerRoot_split k positive).2.2 n inside))
    (Radical.integerRoot_radicand proper positive n inside)

/-- A radical times i is a single term again: i stands in front of the roots. -/
theorem positiveRadical_mul_imaginary (proper : 2 ≤ k) (q : Rat) :
    ∃ p, (positiveRadical q k).mul (ofAtom .imaginary) = .ok p := by
  unfold positiveRadical integerRadical
  rw [scale_term]
  generalize Radical.integerRoot _ k = split
  have roots := @mem_setCounts split.2 k []
  generalize split.2.foldl _ [] = fs at roots ⊢
  have merged : Monomial.mergeFactors fs [(.imaginary, 1)] = .ok ((.imaginary, 1) :: fs) := by
    cases fs with
    | nil => rfl
    | cons f fs =>
      obtain ⟨n, -, rfl⟩ := (roots f List.mem_cons_self).resolve_left List.not_mem_nil
      have before : Atom.compare (.root (constant (n : Nat)) k) .imaginary = .gt :=
        Atom.compare_gt_iff.mpr (Atom.compare_lt_of_kind_lt (Nat.lt_succ_self 2))
      rw [Monomial.mergeFactors_cons_cons, before, Monomial.mergeFactors_nil_right]
      rfl
  have combined : (⟨fs, .zero⟩ : Monomial).combine (.ofAtom .imaginary 1) =
      .ok ⟨(.imaginary, 1) :: fs, .zero⟩ := by
    unfold Monomial.combine
    change (Monomial.mergeFactors fs [(.imaginary, 1)] >>= fun hs => _) = _
    rw [merged]
    rfl
  have irreducible : (⟨(.imaginary, 1) :: fs, .zero⟩ : Monomial).Irreducible := by
    refine irreducible_ones (List.forall_mem_cons.mpr ⟨⟨rfl, nofun⟩, fun f member => ?_⟩)
    obtain ⟨n, -, rfl⟩ := (roots f member).resolve_left List.not_mem_nil
    refine ⟨rfl, fun p j same => ?_⟩
    rw [← (Atom.root.inj same).2]
    exact proper
  exact ⟨_, mul_term combined irreducible _ 1⟩

/-- Only even roots above the square root of negative rationals are refused. -/
theorem rationalRadical_error_iff (proper : 2 ≤ k) (q : Rat) :
    (∃ e, rationalRadical q k = .error e) ↔ q < 0 ∧ k % 2 = 0 ∧ 2 < k := by
  unfold rationalRadical
  split
  · rename_i zero
    simp [zero]
  split
  · rename_i negative
    split
    · rename_i two
      obtain ⟨p, ran⟩ := positiveRadical_mul_imaginary proper (-q)
      rw [ran]
      simp [two]
    split
    · rename_i odd
      simp [odd]
    · simp only [Except.error.injEq, exists_eq', negative, true_and, true_iff]
      omega
  · rename_i nonneg
    simp [nonneg]

theorem rationalRadical_error {f : Failure} (proper : 2 ≤ k)
    (failed : rationalRadical q k = .error f) : ∃ text, f = .unsupported text := by
  obtain ⟨negative, even, above⟩ := (rationalRadical_error_iff proper q).mp ⟨f, failed⟩
  rw [rationalRadical, if_neg negative.ne, if_pos negative, if_neg above.ne', if_neg (by omega)]
    at failed
  exact ⟨_, (Except.error.inj failed).symm⟩

end Poly

namespace Valuation

variable {A : Type*} [CommRing A] [Algebra ℚ A] {v : Valuation A}

/-- The power of the radical of a positive rational is the rational. -/
theorem positiveRadical_pow (lawful : v.Lawful) (proper : k ≠ 0) (positive : 0 < q)
    (known : ∀ a ∈ Poly.radicals q k, v.known a) :
    v.AdmitsPoly (.positiveRadical q k) ∧
      v.poly (.positiveRadical q k) ^ k = algebraMap ℚ A q := by
  have radicand := Radical.radicand_pos positive k
  rw [Poly.radicals, if_neg positive.ne'] at known
  have listed := List.forall_mem_map.mp known
  obtain ⟨admitted, value⟩ := Valuation.integerRadical_value radicand listed
  refine ⟨admitted.scale _, ?_⟩
  obtain ⟨product, -, -⟩ := Radical.integerRoot_split k radicand
  have whole := Radical.radicand_eq positive proper
  unfold Poly.positiveRadical
  rw [poly_scale, value]
  generalize q.num.natAbs * Nat.pow q.den (k - 1) = n at product whole listed
  generalize Radical.integerRoot n k = root at product listed
  -- Every root gives its radicand.
  have each : ((root.2.map fun n : Nat => v.atom (.root (.constant (n : Nat)) k)).prod) ^ k =
      algebraMap ℚ A (root.2.prod : ℕ) := by
    rw [Nat.cast_list_prod, map_list_prod, List.map_map, ← powMonoidHom_apply, map_list_prod,
      List.map_map]
    refine congrArg List.prod (List.map_congr_left fun n member => ?_)
    exact (lawful.root _ _ (listed n member)).trans (v.poly_constant n)
  have ratio : (mkRat 1 q.den) ^ k * ((root.1 : ℚ) ^ k * (root.2.prod : ℕ)) = q := by
    have denominator : (q.den : ℚ) ^ k ≠ 0 := pow_ne_zero _ (Nat.cast_ne_zero.mpr q.den_nz)
    have parts : (root.1 : ℚ) ^ k * (root.2.prod : ℕ) = q * q.den ^ k := by
      rw [← whole, product]
      push_cast
      rfl
    rw [parts, Rat.mkRat_eq_div, Int.cast_one, one_div, inv_pow, mul_comm q,
      inv_mul_cancel_left₀ denominator]
  rw [mul_pow, mul_pow, each, ← map_pow, ← map_pow, ← map_mul, ← map_mul, ratio]

/-- The power of the radical of a rational is the rational. -/
theorem rationalRadical_pow (lawful : v.Lawful) (proper : 2 ≤ k) (imaginary : v.known .imaginary)
    (known : ∀ a ∈ Poly.radicals q k, v.known a) :
    Yields (Poly.rationalRadical q k)
      (fun p => v.AdmitsPoly p ∧ v.poly p ^ k = algebraMap ℚ A q) := by
  have nonzero : k ≠ 0 := by omega
  have negated (negative : q < 0) := positiveRadical_pow lawful nonzero (neg_pos.mpr negative)
    (by rwa [Poly.radicals_neg])
  unfold Poly.rationalRadical
  split
  · rename_i zero
    refine ⟨.zero, ?_⟩
    rw [poly_zero, zero_pow nonzero, zero, map_zero]
  split
  · rename_i negative
    obtain ⟨admitted, power⟩ := negated negative
    split
    · rename_i two
      subst two
      have squared := mul_ensures lawful admitted (.ofAtom imaginary)
      refine (squared.mono_error fun _ _ => trivial).mono ?_
      rintro p ⟨final, product⟩
      refine ⟨final, ?_⟩
      rw [product, mul_pow, power, poly_ofAtom, lawful.imaginary imaginary, map_neg, neg_mul_neg,
        mul_one]
    split
    · rename_i odd
      refine ⟨admitted.neg, ?_⟩
      rw [poly_neg, Odd.neg_pow (Nat.odd_iff.mpr odd), power, map_neg, neg_neg]
    · trivial
  · rename_i zero nonneg
    have positive := lt_of_le_of_ne (not_lt.mp nonneg) (Ne.symm zero)
    exact positiveRadical_pow lawful nonzero positive known

end Valuation

/-! ## Roots of fractions -/

namespace Fraction

/-- The fraction times a power of its denominator. -/
def lifted (r : Fraction) (k : Nat) : Outcome Poly :=
  if r.den.isOne then .ok r.num else do r.num.mul (← r.den.pow (k - 1))

/-- The root of the content of a polynomial times the root of the rest. -/
def contentRoot (p : Poly) (k : Nat) : Outcome Fraction := do
  (ofPoly (← Poly.rationalRadical p.content k)).mul
    (ofAtom (.root (p.scale p.content⁻¹) k))

theorem root_of_constant (proper : 2 ≤ k) (constant : r.constant? = some q) :
    r.root k = (do return ofPoly (← Poly.rationalRadical q k)) := by
  unfold root
  rw [if_neg (by omega), if_neg (by omega)]
  dsimp only
  rw [constant]

theorem root_of_symbolic (proper : 2 ≤ k) (symbolic : r.constant? = none) :
    r.root k = (do
      let p ← r.lifted k
      let root ← contentRoot p k
      if r.den.isOne then return root else root.div (ofPoly r.den)) := by
  unfold root lifted contentRoot
  rw [if_neg (by omega), if_neg (by omega)]
  dsimp only
  rw [symbolic]
  simp only [bind_assoc]
  split
  · rfl
  · simp only [bind_assoc]

/-- The roots that the root of a fraction is made of. -/
def surds (r : Fraction) (k : Nat) : List Atom :=
  match r.constant?, r.lifted k with
  | some q, _ => Poly.radicals q k
  | none, .ok p => .root (p.scale p.content⁻¹) k :: Poly.radicals p.content k
  | none, .error _ => []

end Fraction

theorem Poly.Class.lifted {C : Poly → Prop} (cls : Poly.Class C) (belongs : Fraction.Belongs C r)
    (k : Nat) : Yields (r.lifted k) C := by
  unfold Fraction.lifted
  split
  · exact belongs.num
  · exact .bind (cls.pow belongs.den (k - 1)) fun p raised => cls.mul belongs.num raised

theorem Fraction.surds_canonical (proper : 2 ≤ k) (fits : fitsInt64 k = true)
    (belongs : Fraction.Belongs (Poly.Canonical max) r) : ∀ a ∈ r.surds k, a.Canonical max := by
  unfold Fraction.surds
  split
  · exact Poly.radicals_canonical proper fits _
  · rename_i p _ ran
    have canonical := ((Vocabulary.canonicalClass max).lifted belongs k).of_ok ran
    exact List.forall_mem_cons.mpr ⟨Fraction.radicand_canonical proper fits canonical,
      Poly.radicals_canonical proper fits _⟩
  · exact fun a member => absurd member List.not_mem_nil

/-- What the root of a fraction is taken of. -/
theorem Valuation.lifted_yields {A : Type*} [CommRing A] [Algebra ℚ A] {v : Valuation A}
    (lawful : v.Lawful) (top : v.AdmitsPoly r.num) (bottom : v.AdmitsPoly r.den) (k : Nat) :
    Yields (r.lifted k)
      (fun p => v.AdmitsPoly p ∧ v.poly p = v.poly r.num * v.poly r.den ^ (k - 1)) := by
  unfold Fraction.lifted
  split
  · rename_i one
    refine ⟨top, ?_⟩
    rw [v.poly_of_constant (beq_iff_eq.mp one), map_one, one_pow, mul_one]
  · have power := powWith_ensures (reduce_reduces lawful) bottom (k - 1)
    refine Yields.bind_ok fun p raised => ?_
    obtain ⟨admitted, value⟩ := power.of_ok raised
    rw [← value]
    exact (mul_ensures lawful top admitted).mono_error fun _ _ => trivial

namespace Valuation.Represents

variable {A : Type*} [CommRing A] [Algebra ℚ A] {v : Valuation A} {x : A}
  (cancelling : v.Cancelling (Poly.Canonical max))

include cancelling

theorem neg (represents : v.Represents (Poly.Canonical max) r x) :
    v.Represents (Poly.Canonical max) r.neg (-x) := by
  obtain ⟨⟨top, bottom, above, below, value⟩, regular⟩ := represents
  refine ⟨⟨top.neg, bottom, (cancelling.closed.neg ⟨above, below⟩).num, below, ?_⟩, regular⟩
  change v.poly r.num.neg = _ * v.poly r.den
  rw [poly_neg, value, neg_mul]

variable [Nontrivial A]

/-- The quotient by a polynomial. -/
theorem divPoly (represents : v.Represents (Poly.Canonical max) r x)
    (bottom : v.divisible.AdmitsPoly p) (below : p.Canonical max) :
    Yields (r.div (.ofPoly p))
      (fun s => ∃ y, v.Represents (Poly.Canonical max) s y ∧ y * v.poly p = x) := by
  obtain ⟨ratio, -⟩ := represents
  unfold Fraction.div
  split
  · trivial
  rename_i nonzero
  obtain ⟨u, unit⟩ := cancelling.isUnit p bottom below (Bool.eq_false_iff.mpr nonzero)
  refine Yields.bind_ok fun num first => Yields.bind_ok fun den second => ?_
  obtain ⟨top, value⟩ := (mul_ensures cancelling.lawful ratio.top .one).of_ok first
  obtain ⟨admitted, product⟩ := (mul_ensures cancelling.divisible ratio.bottom bottom).of_ok second
  rw [divisible_poly, divisible_poly, divisible_poly] at product
  have quotient : v.Ratio v.AdmitsPoly (Poly.Canonical max) num den (x * ↑u⁻¹) := by
    refine ⟨top, admitted, (cancelling.closed.mul ratio.above cancelling.closed.one).of_ok first,
      (cancelling.closed.mul ratio.below below).of_ok second, ?_⟩
    rw [value, product, ratio.value, poly_one, mul_one, ← unit]
    linear_combination (-x * v.poly r.den) * u.inv_mul
  refine (quotient.make cancelling cancelling.lawful.numerators).mono fun s final => ⟨_, final, ?_⟩
  rw [← unit, mul_assoc, Units.inv_mul, mul_one]

theorem contentRoot (canonical : p.Canonical max) (proper : 2 ≤ k)
    (fits : fitsInt64 k = true) (imaginary : v.known .imaginary)
    (root : v.known (.root (p.scale p.content⁻¹) k))
    (known : ∀ a ∈ Poly.radicals p.content k, v.known a) :
    Yields (Fraction.contentRoot p k)
      (fun s => ∃ y, v.Represents (Poly.Canonical max) s y ∧ y ^ k = v.poly p) := by
  unfold Fraction.contentRoot
  refine Yields.bind_ok fun outside ran => ?_
  obtain ⟨member, power⟩ := (rationalRadical_pow cancelling.lawful proper imaginary known).of_ok ran
  have left := Represents.of_poly cancelling.closed member
    ((Poly.rationalRadical_canonical proper fits _).of_ok ran)
  have right := Represents.of_poly cancelling.closed (.ofAtom root)
    (Vocabulary.canonical_ofAtom (Fraction.radicand_canonical proper fits canonical))
  refine (left.mul cancelling right).mono fun s product => ⟨_, product, ?_⟩
  have content := p.content_pos.ne'
  rw [mul_pow, power, poly_ofAtom, cancelling.lawful.root _ _ root, poly_scale, ← mul_assoc,
    ← map_mul, mul_inv_cancel₀ content, map_one, one_mul]

/-- The power of the root of a fraction is the fraction. -/
theorem root (represents : v.Represents (Poly.Canonical max) r x) (proper : 2 ≤ k)
    (fits : fitsInt64 k = true) (imaginary : v.known .imaginary)
    (known : ∀ a ∈ r.surds k, v.known a) :
    Yields (r.root k)
      (fun s => ∃ y, v.Represents (Poly.Canonical max) s y ∧ y ^ k = x) := by
  obtain ⟨ratio, regular⟩ := represents
  cases shape : r.constant? with
  | some q =>
    rw [Fraction.surds, shape] at known
    rw [Fraction.root_of_constant proper shape]
    have whole : r.den.isOne = true := by
      by_contra quotient
      rw [Fraction.constant?, if_neg quotient] at shape
      cases shape
    have value := ratio.value
    rw [Fraction.constant?, if_pos whole] at shape
    rw [v.poly_of_constant shape, v.poly_of_constant (beq_iff_eq.mp whole), map_one, mul_one]
      at value
    refine Yields.bind_ok fun p ran => ?_
    obtain ⟨admitted, power⟩ :=
      (rationalRadical_pow cancelling.lawful proper imaginary known).of_ok ran
    refine ⟨v.poly p, .of_poly cancelling.closed admitted
      ((Poly.rationalRadical_canonical proper fits q).of_ok ran), ?_⟩
    rw [power, value]
  | none =>
    rw [Fraction.root_of_symbolic proper shape]
    refine Yields.bind_ok fun p ran => ?_
    obtain ⟨-, value⟩ := (lifted_yields cancelling.lawful ratio.top
      ratio.bottom.of_divisible k).of_ok ran
    have canonical := (cancelling.closed.lifted ⟨ratio.above, ratio.below⟩ k).of_ok ran
    rw [ratio.value, mul_assoc, ← pow_succ', Nat.sub_add_cancel (by omega)] at value
    rw [Fraction.surds, shape, ran] at known
    obtain ⟨root, radicals⟩ := List.forall_mem_cons.mp known
    refine .bind (contentRoot cancelling canonical proper fits imaginary root radicals) ?_
    rintro s ⟨y, final, power⟩
    split
    · rename_i whole
      rw [v.poly_of_constant (beq_iff_eq.mp whole), map_one, one_pow, mul_one] at value
      exact ⟨y, final, power.trans value⟩
    · refine (final.divPoly cancelling ratio.bottom ratio.below).mono ?_
      rintro t ⟨z, quotient, rfl⟩
      rw [mul_pow, value] at power
      exact ⟨z, quotient, (regular.pow k).mul_right_cancel power⟩

end Valuation.Represents

end Discharge
