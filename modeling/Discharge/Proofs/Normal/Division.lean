import Discharge.Proofs.Normal.Common
import Discharge.Proofs.Normal.Reduction

/-! Dividing by monomials. In a field, a monomial whose value is not zero has a
reciprocal with the inverse value; it is refused if an exponent is the least one
of 64 bits, which has no negative. Division by the common monomial leaves no
negative exponent. -/

namespace Discharge

open Failure (IsOverflow)

/-! ## Machine integers -/

theorem machineInt_ensures (operation : String) (n : Int) :
    Ensures (machineInt operation n) (fun k => fitsInt64 n = true ∧ k = n) IsOverflow := by
  unfold machineInt
  split
  · exact ⟨‹_›, rfl⟩
  · exact ⟨_, rfl⟩

theorem machineInt_eq_ok {operation : String} {n k : Int} (ran : machineInt operation n = .ok k) :
    fitsInt64 n = true ∧ k = n :=
  (machineInt_ensures operation n).of_ok ran

namespace Monomial

variable {m k : Monomial}

/-! ## Reciprocals -/

theorem inverse_ensures (m : Monomial) :
    Ensures m.inverse (fun k => m.isInvertible = true ∧ k = m.reciprocal) IsOverflow := by
  unfold inverse
  split
  · exact ⟨‹_›, rfl⟩
  · exact ⟨_, rfl⟩

theorem inverse_of_invertible (invertible : m.isInvertible = true) :
    m.inverse = .ok m.reciprocal := if_pos invertible

theorem inverse_eq_ok (ran : m.inverse = .ok k) : m.isInvertible = true ∧ k = m.reciprocal :=
  (inverse_ensures m).of_ok ran

theorem isInvertible_iff : m.isInvertible = true ↔ ∀ f ∈ m.factors, fitsInt64 (-f.2) = true :=
  List.all_eq_true

theorem count_reciprocal (m : Monomial) (a : Atom) : m.reciprocal.count a = -m.count a := by
  simp only [count_eq, reciprocal]
  induction m.factors with
  | nil => rfl
  | cons f fs ih =>
    obtain ⟨b, n⟩ := f
    simp only [List.map_cons, exponentIn_cons, ih]
    by_cases same : a = b
    · simp [same]
    · simp [same]

end Monomial

namespace Valuation

section Admitted

variable {A : Type*} [CommRing A] [Algebra ℚ A] {v : Valuation A}
variable {m : Monomial} {p : Poly} {a : Atom} {n : Int}

theorem factors_setCount {fs : List (Atom × Int)} (absent : ∀ f ∈ fs, f.1 ≠ a) (n : Int) :
    v.factors (Monomial.setCount a n fs) = intPower (v.atom a) n * v.factors fs := by
  induction fs with
  | nil => rfl
  | cons f fs ih =>
    obtain ⟨b, k⟩ := f
    obtain ⟨head, tail⟩ := List.forall_mem_cons.mp absent
    rw [Monomial.setCount]
    cases order : Atom.compare a b with
    | lt => rfl
    | eq => exact absurd ((Atom.compare_eq_iff a b).mp order).symm head
    | gt =>
      dsimp only
      rw [factors_cons, factors_cons, ih tail]
      ring

/-- A monomial with the exponent of one atom set to one. -/
theorem Admits.withAtom (admitted : v.Admits m) (known : v.known a) :
    v.Admits ⟨Monomial.setCount a 1 m.factors, m.exp⟩ := by
  refine ⟨admitted.increasing.setCount a 1, fun f member => ?_, admitted.exponent,
    admitted.turning, admitted.inner⟩
  rcases Monomial.mem_setCount member with rfl | old
  · exact ⟨one_ne_zero, rfl, known, by simp⟩
  · exact admitted.factor f old

/-- A monomial with one more atom in it. -/
theorem Admits.setCount (admitted : v.Admits m) (absent : ∀ f ∈ m.factors, f.1 ≠ a)
    (known : v.known a) : v.Admits ⟨Monomial.setCount a 1 m.factors, m.exp⟩ ∧
      v.monomial ⟨Monomial.setCount a 1 m.factors, m.exp⟩ = v.atom a * v.monomial m := by
  refine ⟨admitted.withAtom known, ?_⟩
  rw [monomial_eq, monomial_eq, factors_setCount absent, intPower_one, mul_assoc]

theorem Admits.of_count (admitted : v.Admits m) (nonzero : m.count a ≠ 0) :
    v.AdmitsFactor (a, m.count a) :=
  admitted.factor _ (Monomial.mem_of_exponentIn nonzero)

/-- The common monomial of an admitted polynomial is admitted. -/
theorem AdmitsPoly.commonMonomial (admitted : v.AdmitsPoly p) : v.Admits p.commonMonomial := by
  have increasing := admitted.all.mono fun m holds => holds.increasing
  refine ⟨Poly.commonMonomial_increasing increasing, fun f member => ?_, ?_, ?_, ?_⟩
  · obtain ⟨a, n⟩ := f
    obtain ⟨nonzero, -, t, term, count⟩ := Poly.mem_commonMonomial increasing member
    rw [← count] at nonzero ⊢
    exact (admitted.all t term).of_count nonzero
  · rw [Poly.commonMonomial_exp]
    exact .zero
  · exact .inl (Poly.commonMonomial_exp p)
  · rw [Poly.commonMonomial_exp]
    exact .zero

/-- The reciprocal of an admitted monomial is admitted when all its atoms may be
divided by. -/
theorem Admits.reciprocal (admitted : v.Admits m) (invertible : m.isInvertible = true)
    (regular : ∀ f ∈ m.factors, v.invertible f.1) : v.Admits m.reciprocal := by
  refine ⟨admitted.increasing.of_sublist ?_, fun f member => ?_, admitted.exponent.scale _, ?_,
    admitted.inner.scale _⟩
  · simp [Monomial.reciprocal, Function.comp_def]
  · obtain ⟨g, old, rfl⟩ := List.mem_map.mp member
    have factor := admitted.factor g old
    exact ⟨neg_ne_zero.mpr factor.nonzero, Monomial.isInvertible_iff.mp invertible g old,
      factor.known, fun _ => regular g old⟩
  · rcases admitted.turning with zero | turning
    · exact .inl (by simp [Monomial.reciprocal, zero, Poly.neg, Poly.scale, Poly.zero])
    · exact .inr turning

/-- The same values, with no atom to be divided by: what is admitted has no
negative exponent. -/
def nonnegative (v : Valuation A) : Valuation A :=
  { v with
    invertible := fun _ => False
    isUnit := fun _ impossible => impossible.elim }

theorem nonnegative_factor {f : Atom × Int} (admitted : v.nonnegative.AdmitsFactor f) : 0 < f.2 := by
  have regular : ¬ f.2 < 0 := admitted.regular
  have nonzero := admitted.nonzero
  omega

theorem nonnegative_admits (admitted : v.Admits m) (nonneg : ∀ a, 0 ≤ m.count a) :
    v.nonnegative.Admits m := by
  refine ⟨admitted.increasing, fun f member => ?_, admitted.exponent, admitted.turning,
    admitted.inner⟩
  have factor := admitted.factor f member
  refine ⟨factor.nonzero, factor.fits, factor.known, fun negative => ?_⟩
  have count := nonneg f.1
  rw [Monomial.count_eq, Monomial.exponentIn_of_mem admitted.increasing member] at count
  exact absurd negative (not_lt.mpr count)

/-- The exponents of a product are the sums of the exponents. -/
theorem count_combine {k l : Monomial} (left : v.Admits m) (right : v.Admits k)
    (combined : m.combine k = .ok l) (a : Atom) : l.count a = m.count a + k.count a := by
  obtain ⟨fs, merged, rest⟩ := bind_eq_ok combined
  cases rest
  exact (Monomial.exponentIn_mergeFactors m.factors k.factors).of_ok merged left.increasing
    right.increasing a

/-- A shift that goes through has multiplied every term. -/
theorem shiftTerms_combines {ts : List (Monomial × Rat)} {ps : List Poly}
    (ran : Poly.shiftTerms m ts = .ok ps) : ∀ t ∈ ts, ∃ k, t.1.combine m = .ok k := by
  induction ts generalizing ps with
  | nil => simp
  | cons t ts ih =>
    obtain ⟨n, d⟩ := t
    obtain ⟨k, combined, rest⟩ := bind_eq_ok ran
    obtain ⟨r, -, rest⟩ := bind_eq_ok rest
    obtain ⟨qs, tail, -⟩ := bind_eq_ok rest
    exact List.forall_mem_cons.mpr ⟨⟨k, combined⟩, ih tail⟩

/-- What a shift returns is admitted when the products of the terms are. -/
theorem shift_admits (lawful : v.Lawful) {r : Poly}
    (each : ∀ t ∈ p.terms, ∀ k, t.1.combine m = .ok k → v.Admits k)
    (ran : p.shift m = .ok r) : v.AdmitsPoly r := by
  obtain ⟨ps, shifted, done⟩ := bind_eq_ok ran
  cases done
  refine .sum ?_
  clear ran
  generalize p.terms = ts at each shifted
  induction ts generalizing ps with
  | nil =>
    cases shifted
    simp
  | cons t ts ih =>
    obtain ⟨n, d⟩ := t
    obtain ⟨k, combined, rest⟩ := bind_eq_ok shifted
    obtain ⟨q, reduced, rest⟩ := bind_eq_ok rest
    obtain ⟨qs, tail, done⟩ := bind_eq_ok rest
    cases done
    have admitted : v.Admits k := each (n, d) List.mem_cons_self k combined
    have head := (reduce_reduces lawful k admitted).of_ok reduced
    exact List.forall_mem_cons.mpr ⟨head.1.scale d,
      ih qs (fun t member => each t (List.mem_cons_of_mem _ member)) tail⟩

/-! ## Dividing by the common monomial -/

/-- No exponent is negative after the division of a denominator without surds by
its common monomial. -/
theorem shift_commonMonomial_nonnegative (lawful : v.nonnegative.Lawful)
    (admitted : v.AdmitsPoly p) (inverse : v.Admits p.commonMonomial.reciprocal)
    (plain : ∀ t ∈ p.terms, ∀ f ∈ t.1.factors, f.1.isQuadraticSurd = false) {r : Poly}
    (ran : p.shift p.commonMonomial.reciprocal = .ok r) : v.nonnegative.AdmitsPoly r := by
  have increasing := admitted.all.mono fun m holds => holds.increasing
  refine shift_admits lawful (fun t term k combined => ?_) ran
  have product := (combine_ensures (admitted.all t term) inverse).of_ok combined
  refine nonnegative_admits product.1 fun a => ?_
  rw [count_combine (admitted.all t term) inverse combined, Monomial.count_reciprocal]
  by_cases surd : a.isQuadraticSurd = false
  · have below := Poly.count_commonMonomial_le increasing surd term
    omega
  · -- A surd occurs neither in the term nor in the common monomial.
    have absent : t.1.count a = 0 := by
      by_contra present
      exact surd (plain t term _ (Monomial.mem_of_exponentIn present))
    have common : p.commonMonomial.count a = 0 := by
      by_contra present
      exact surd (Poly.mem_commonMonomial increasing (Monomial.mem_of_exponentIn present)).2.1
    omega

end Admitted

/-! ## Values in a field -/

section Field

variable {K : Type*} [Field K] [Algebra ℚ K] {v : Valuation K}
variable {m : Monomial} {p : Poly} {a : Atom} {n : Int}

theorem exp_neg_mul (x : K) : v.exp (-x) * v.exp x = 1 := by
  rw [← v.exp_add, neg_add_cancel, v.exp_zero]

theorem exp_ne_zero (x : K) : v.exp x ≠ 0 := right_ne_zero_of_mul_eq_one (exp_neg_mul x)

theorem exp_neg (x : K) : v.exp (-x) = (v.exp x)⁻¹ := eq_inv_of_mul_eq_one_left (exp_neg_mul x)

theorem factors_ne_zero {fs : List (Atom × Int)} (regular : ∀ f ∈ fs, v.atom f.1 ≠ 0) :
    v.factors fs ≠ 0 := by
  induction fs with
  | nil => simp
  | cons f fs ih =>
    obtain ⟨a, n⟩ := f
    obtain ⟨head, tail⟩ := List.forall_mem_cons.mp regular
    rw [factors_cons, intPower_eq_zpow]
    exact mul_ne_zero (zpow_ne_zero n head) (ih tail)

theorem monomial_ne_zero (regular : ∀ f ∈ m.factors, v.atom f.1 ≠ 0) : v.monomial m ≠ 0 := by
  rw [monomial_eq]
  exact mul_ne_zero (factors_ne_zero regular) (exp_ne_zero _)

theorem factors_eq_zero {fs : List (Atom × Int)} (member : (a, n) ∈ fs) (positive : 0 < n)
    (zero : v.atom a = 0) : v.factors fs = 0 := by
  induction fs with
  | nil => simp at member
  | cons f fs ih =>
    obtain ⟨b, k⟩ := f
    rw [factors_cons]
    rcases List.mem_cons.mp member with same | member
    · cases same
      rw [zero, intPower_eq_zpow, zero_zpow n positive.ne', zero_mul]
    · rw [ih member, mul_zero]

/-- The atoms of a monomial with a value other than zero have values other than
zero. -/
theorem Admits.atom_ne_zero (admitted : v.Admits m) (regular : v.monomial m ≠ 0) :
    ∀ f ∈ m.factors, v.atom f.1 ≠ 0 := by
  intro f member zero
  have factor := admitted.factor f member
  rcases lt_or_gt_of_ne factor.nonzero with negative | positive
  · exact (factor.isUnit negative).ne_zero zero
  · refine regular ?_
    rw [monomial_eq, factors_eq_zero member positive zero, zero_mul]

theorem terms_eq_zero {ts : List (Monomial × Rat)} (each : ∀ t ∈ ts, v.monomial t.1 = 0) :
    v.terms ts = 0 := by
  induction ts with
  | nil => simp
  | cons t ts ih =>
    obtain ⟨head, tail⟩ := List.forall_mem_cons.mp each
    rw [terms_cons, head, ih tail, mul_zero, add_zero]

/-- The atoms of the common monomial of a polynomial with a value other than
zero have values other than zero. -/
theorem commonMonomial_atom_ne_zero (admitted : v.AdmitsPoly p) (regular : v.poly p ≠ 0) :
    ∀ f ∈ p.commonMonomial.factors, v.atom f.1 ≠ 0 := by
  intro f member zero
  obtain ⟨a, n⟩ := f
  have increasing := admitted.all.mono fun m holds => holds.increasing
  have factor := admitted.commonMonomial.factor _ member
  rcases lt_or_gt_of_ne factor.nonzero with negative | positive
  · exact (factor.isUnit negative).ne_zero zero
  · -- Then the atom divides every term.
    refine regular ?_
    rw [poly_eq]
    refine terms_eq_zero fun t term => ?_
    have plain := (Poly.mem_commonMonomial increasing member).2.1
    have below := Poly.count_commonMonomial_le increasing plain term
    have count : p.commonMonomial.count a = n :=
      Monomial.exponentIn_of_mem admitted.commonMonomial.increasing member
    have positive' : 0 < t.1.count a := by
      dsimp only at positive
      omega
    have factor' := Monomial.mem_of_exponentIn positive'.ne'
    rw [monomial_eq, factors_eq_zero factor' positive' zero, zero_mul]

/-- The reciprocal of a monomial has the inverse value. -/
theorem monomial_reciprocal (m : Monomial) : v.monomial m.reciprocal = (v.monomial m)⁻¹ := by
  have factors : v.factors m.reciprocal.factors = (v.factors m.factors)⁻¹ := by
    simp only [Monomial.reciprocal]
    induction m.factors with
    | nil => simp
    | cons f fs ih =>
      obtain ⟨a, n⟩ := f
      rw [List.map_cons, factors_cons, factors_cons, ih, intPower_eq_zpow, intPower_eq_zpow,
        zpow_neg, mul_inv]
  rw [monomial_eq, monomial_eq, factors, mul_inv]
  simp only [Monomial.reciprocal, poly_neg, exp_neg]

end Field

end Valuation

end Discharge
