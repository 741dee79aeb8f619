import Discharge.Proofs.Normal.Divisors

/-! Denominators of canonical forms. By its shape, a denominator is zero, one,
or has several terms of which the first has the coefficient one. It is not zero
if there are values for the atoms under which nothing is zero that was divided
by; here the values of the fractions do not matter, so roots of any polynomials,
logarithms and symbolic powers may occur. -/

namespace Discharge

/-! ## The shape of a denominator -/

namespace Fraction

/-- What the denominator of a canonical form looks like. -/
inductive Shaped (r : Fraction) : Prop
  | zero (zero : r.den = .zero)
  | one (one : r.den = .one)
  | several (length : 2 ≤ r.den.terms.length) (leading : r.den.leading? = some 1)

theorem shaped_ofPoly (p : Poly) : (ofPoly p).Shaped := .one rfl

theorem monic_shaped {num den : Poly} (several : den.singleTerm? = none) :
    (monic num den).Shaped := by
  obtain ⟨ts⟩ := den
  have scaled : ∀ r : Fraction, r.den = (Poly.mk ts).scale ((Poly.mk ts).leading?.getD 1)⁻¹ →
      r.Shaped := by
    intro r same
    cases ts with
    | nil => exact .zero (by simp [same, Poly.scale, Poly.zero])
    | cons t ts =>
      obtain ⟨m, c⟩ := t
      have first : (Poly.mk ((m, c) :: ts)).leading? = some c := rfl
      rw [first, Option.getD_some] at same
      by_cases vanishes : c = 0
      · exact .zero (by rw [same, vanishes, inv_zero, Poly.scale, if_pos rfl])
      · cases ts with
        | nil => cases several
        | cons t' ts =>
          rw [Poly.scale, if_neg (inv_ne_zero vanishes)] at same
          refine .several (by simp [same]) ?_
          rw [same, Poly.leading?, List.map_cons, List.head?_cons, Option.map_some,
            mul_inv_cancel₀ vanishes]
  unfold monic
  dsimp only
  split
  · split
    · exact shaped_ofPoly _
    · exact scaled _ rfl
  · exact scaled _ rfl

/-- How a canonical form comes about: it is zero, or what is left of the
denominator is one term that is divided out, or it is made monic. -/
theorem make_cases {num den : Poly} {r : Fraction} (ran : make num den = .ok r) :
    num.isZero = true ∧ r = zero ∨ num.isZero = false ∧ ∃ q q', rationalise maxRounds num den = .ok q ∧
      cancelMonomial q.1 q.2 = .ok q' ∧
      ((∃ m c p, q'.2.singleTerm? = some (m, c) ∧ m.isInvertible = true ∧
          q'.1.shift m.reciprocal = .ok p ∧ r = ofPoly (p.scale c⁻¹)) ∨
        q'.2.singleTerm? = none ∧ r = monic q'.1 q'.2) := by
  unfold make at ran
  by_cases invalid : den.isZero = true
  · rw [invalid] at ran
    cases ran
  rw [Bool.not_eq_true] at invalid
  by_cases empty : num.isZero = true
  · rw [invalid, empty] at ran
    cases ran
    exact .inl ⟨empty, rfl⟩
  rw [Bool.not_eq_true] at empty
  rw [invalid, empty] at ran
  refine .inr ⟨empty, ?_⟩
  obtain ⟨q, first, ran⟩ := bind_eq_ok ran
  obtain ⟨q', second, ran⟩ := bind_eq_ok ran
  refine ⟨q, q', first, second, ?_⟩
  dsimp only at ran
  split at ran
  · rename_i m c single
    obtain ⟨k, inverted, ran⟩ := bind_eq_ok ran
    obtain ⟨invertible, rfl⟩ := Monomial.inverse_eq_ok inverted
    obtain ⟨p, third, ran⟩ := bind_eq_ok ran
    cases ran
    exact .inl ⟨m, c, p, single, invertible, third, rfl⟩
  · rename_i several
    cases ran
    exact .inr ⟨several, rfl⟩

theorem make_shaped {num den : Poly} {r : Fraction} (ran : make num den = .ok r) : r.Shaped := by
  rcases make_cases ran with ⟨-, rfl⟩ | ⟨-, q, q', -, -, ⟨m, c, p, -, -, -, rfl⟩ | ⟨several, rfl⟩⟩
  · exact shaped_ofPoly _
  · exact shaped_ofPoly _
  · exact monic_shaped several

end Fraction

namespace Valuation

variable {K : Type*} [Field K] [Algebra ℚ K] {v : Valuation K} {r s : Fraction}
  {num den p : Poly} {m : Monomial} {ds es : List Poly}

/-! ## Regular fractions -/

/-- The fraction is built from admitted monomials, and its denominator has a
value other than zero. -/
structure Regular (v : Valuation K) (r : Fraction) : Prop where
  num : v.AdmitsPoly r.num
  den : v.AdmitsPoly r.den
  nonzero : v.poly r.den ≠ 0

/-- None of the polynomials has the value zero. -/
def Clear (v : Valuation K) (ds : List Poly) : Prop := ∀ d ∈ ds, v.poly d ≠ 0

/-- The laws of the normal form for all that may occur in one: what an atom
consists of is regular itself. -/
structure Complete (v : Valuation K) : Prop where
  lawful : v.Lawful
  invertible : ∀ a, v.atom a ≠ 0 → v.invertible a
  turning : v.turning
  inner : ∀ m, v.inner m ↔ v.Admits m
  symbol : ∀ s, v.known (.symbol s)
  pi : v.known .pi
  imaginary : v.known .imaginary
  root : ∀ p k, v.known (.root p k) ↔ 2 ≤ k ∧ fitsInt64 k = true ∧ v.AdmitsPoly p
  ln : ∀ r, v.known (.ln r) ↔ v.Regular r
  exp : ∀ r, v.known (.exp r) ↔ v.Regular r
  power : ∀ b e, v.known (.power b e) ↔ v.Regular b ∧ v.Regular e ∧ e.constant? = none
  /-- A power is zero only if its base is. -/
  power_ne_zero : ∀ b e, v.Regular b → v.poly b.num ≠ 0 → v.atom (.power b e) ≠ 0

theorem Regular.denotes (regular : v.Regular r) :
    v.Denotes r (v.poly r.num / v.poly r.den) :=
  ⟨regular.num, regular.den, regular.nonzero, (div_mul_cancel₀ _ regular.nonzero).symm⟩

theorem Denotes.toRegular {x : K} (denotes : v.Denotes r x) : v.Regular r :=
  ⟨denotes.num, denotes.den, denotes.regular⟩

theorem Regular.of_poly (admitted : v.AdmitsPoly p) : v.Regular (.ofPoly p) :=
  (Denotes.of_poly admitted).toRegular

theorem Regular.neg (regular : v.Regular r) : v.Regular r.neg :=
  ⟨regular.num.neg, regular.den, regular.nonzero⟩

theorem Clear.append : v.Clear (ds ++ es) ↔ v.Clear ds ∧ v.Clear es := List.forall_mem_append

theorem Clear.mono (clear : v.Clear ds) (part : es ⊆ ds) : v.Clear es :=
  fun d member => clear d (part member)

namespace Complete

variable (complete : v.Complete)

include complete

/-- An admitted monomial may be divided by if its value is not zero. -/
theorem reciprocal (admitted : v.Admits m) (invertible : m.isInvertible = true)
    (atoms : ∀ f ∈ m.factors, v.atom f.1 ≠ 0) :
    v.Admits m.reciprocal ∧ v.monomial m.reciprocal ≠ 0 := by
  refine ⟨admitted.reciprocal invertible fun f member => complete.invertible f.1 (atoms f member), ?_⟩
  refine monomial_ne_zero fun f member => ?_
  obtain ⟨g, old, rfl⟩ := List.mem_map.mp member
  exact atoms g old

theorem cancelMonomial_regular (top : v.AdmitsPoly num) (bottom : v.AdmitsPoly den)
    (nonzero : v.poly den ≠ 0) :
    Yields (Fraction.cancelMonomial num den) fun q =>
      v.AdmitsPoly q.1 ∧ v.AdmitsPoly q.2 ∧ v.poly q.2 ≠ 0 := by
  unfold Fraction.cancelMonomial
  dsimp only
  split
  · exact ⟨top, bottom, nonzero⟩
  · refine Yields.bind_ok fun k inverted => ?_
    obtain ⟨invertible, rfl⟩ := Monomial.inverse_eq_ok inverted
    obtain ⟨inverse, factor⟩ := complete.reciprocal bottom.commonMonomial invertible
      (commonMonomial_atom_ne_zero bottom nonzero)
    refine Yields.bind_ok fun num' ran => Yields.bind_ok fun den' ran' => ?_
    obtain ⟨top', -⟩ := (shift_ensures complete.lawful top inverse).of_ok ran
    obtain ⟨bottom', value⟩ := (shift_ensures complete.lawful bottom inverse).of_ok ran'
    exact ⟨top', bottom', by rw [value]; exact mul_ne_zero nonzero factor⟩

/-- The canonical form of a quotient is regular, as long as nothing that is
divided by is zero. -/
theorem make_regular (top : v.AdmitsPoly num) (bottom : v.AdmitsPoly den)
    (clear : v.Clear (Fraction.divisors num den)) (ran : Fraction.make num den = .ok r) :
    v.Regular r := by
  obtain ⟨nonzero, conjugates⟩ := List.forall_mem_cons.mp clear
  obtain ⟨-, rfl⟩ | ⟨proper, q, q', first, second, last⟩ := Fraction.make_cases ran
  · exact .of_poly .zero
  rw [proper] at conjugates
  obtain ⟨top, bottom, nonzero, -⟩ :=
    (rationalise_ensures complete.lawful _ top bottom nonzero conjugates).of_ok first
  obtain ⟨top, bottom, nonzero⟩ :=
    (complete.cancelMonomial_regular top bottom nonzero).of_ok second
  rcases last with ⟨m, c, p, single, invertible, shifted, rfl⟩ | ⟨-, rfl⟩
  · obtain ⟨num', den'⟩ := q'
    obtain rfl := singleTerm_eq single
    have admitted : v.Admits m := bottom.all (m, c) (List.mem_singleton.mpr rfl)
    have value : v.monomial m ≠ 0 := by
      intro zero
      exact nonzero (by simp [poly_eq, zero])
    obtain ⟨inverse, -⟩ := complete.reciprocal admitted invertible (admitted.atom_ne_zero value)
    exact .of_poly (((shift_ensures complete.lawful top inverse).of_ok shifted).1.scale _)
  · exact (monic_denotes top bottom nonzero).1.toRegular

end Complete

end Valuation

end Discharge
