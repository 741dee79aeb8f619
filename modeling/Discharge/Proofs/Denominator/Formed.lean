import Discharge.Proofs.Denominator.Functions

/-! Well-formed canonical forms. Under an interpretation in which roots of all
values are roots, a form is well formed if its terms and factors are in order,
nothing with the value zero has a negative exponent, and no denominator inside
it has the value zero. The values of an interpretation are then under all laws
of the normal form. -/

namespace Discharge

variable {K : Type*} [Field K] [CharZero K]

/-- The laws of an elementary interpretation, in which every value has roots. -/
structure Interpretation.Rooted (I : Interpretation K) : Prop extends I.Elementary where
  sqrt_root : ∀ x, I.apply .sqrt x ^ 2 = x
  root : ∀ (x : K) (k : ℕ), 3 ≤ k → I.pow x (1 / k) ^ k = x
  pow_ne_zero : ∀ x y, x ≠ 0 → I.pow x y ≠ 0

section Formed

variable (I : Interpretation K)

mutual
/-- Everything inside the atom is well formed. -/
def Atom.Formed : Atom → Prop
  | .symbol _ | .pi | .imaginary => True
  | .root p k => 2 ≤ k ∧ fitsInt64 k = true ∧ Poly.Formed p
  | .ln r | .exp r => Fraction.Formed r
  | .power b e => Fraction.Formed b ∧ Fraction.Formed e ∧ e.constant? = none

/-- A monomial of well-formed factors in order. -/
def Monomial.Formed : Monomial → Prop
  | ⟨fs, e⟩ => Monomial.Increasing fs ∧ factorsFormed fs ∧ Poly.Formed e

/-- A polynomial of well-formed terms in order. -/
def Poly.Formed : Poly → Prop
  | ⟨ts⟩ => Poly.OrderedTerms ts ∧ termsFormed ts

/-- A well-formed numerator over a well-formed denominator that is not zero. -/
def Fraction.Formed : Fraction → Prop
  | ⟨num, den⟩ => Poly.Formed num ∧ Poly.Formed den ∧ Poly.value I den ≠ 0

/-- The exponents are proper, and negative only where the value is not zero. -/
def factorsFormed : List (Atom × Int) → Prop
  | [] => True
  | (a, n) :: fs => (n ≠ 0 ∧ fitsInt64 n = true ∧ (n < 0 → Atom.value I a ≠ 0)) ∧
    Atom.Formed a ∧ factorsFormed fs

/-- The monomials of the terms are well formed. -/
def termsFormed : List (Monomial × Rat) → Prop
  | [] => True
  | (m, _) :: ts => Monomial.Formed m ∧ termsFormed ts
end

end Formed

namespace Interpretation

variable {I : Interpretation K}

/-- The values of an interpretation with roots, for all that is well formed. -/
def Rooted.valuation (rooted : I.Rooted) : Valuation K :=
  { rooted.toElementary.valuation with
    known := Atom.Formed I
    inner := Monomial.Formed I }

namespace Rooted

variable (rooted : I.Rooted)

theorem poly_value (p : Poly) : rooted.valuation.poly p = p.value I :=
  Valuation.poly_eq_value rfl rfl p

theorem formed_factors (fs : List (Atom × Int)) :
    factorsFormed I fs ↔ ∀ f ∈ fs, rooted.valuation.AdmitsFactor f := by
  induction fs with
  | nil => simp [factorsFormed]
  | cons f fs ih =>
    obtain ⟨a, n⟩ := f
    rw [factorsFormed, ih, List.forall_mem_cons, ← and_assoc]
    refine and_congr_left fun _ => ?_
    constructor
    · rintro ⟨⟨nonzero, fits, regular⟩, formed⟩
      exact ⟨nonzero, fits, formed, regular⟩
    · rintro ⟨nonzero, fits, formed, regular⟩
      exact ⟨⟨nonzero, fits, regular⟩, formed⟩

omit [CharZero K] in
theorem formed_terms (ts : List (Monomial × Rat)) :
    termsFormed I ts ↔ ∀ t ∈ ts, t.1.Formed I := by
  induction ts with
  | nil => simp [termsFormed]
  | cons t ts ih =>
    obtain ⟨m, c⟩ := t
    rw [termsFormed, ih, List.forall_mem_cons]

theorem formed_monomial (m : Monomial) : m.Formed I ↔ rooted.valuation.Admits m := by
  obtain ⟨fs, ⟨ts⟩⟩ := m
  rw [Monomial.Formed, Poly.Formed, formed_terms, rooted.formed_factors]
  constructor
  · rintro ⟨increasing, factors, ordered, inner⟩
    exact ⟨increasing, factors, ordered, .inr trivial, inner⟩
  · rintro ⟨increasing, factors, ordered, -, inner⟩
    exact ⟨increasing, factors, ordered, inner⟩

theorem formed_poly (p : Poly) : p.Formed I ↔ rooted.valuation.AdmitsPoly p := by
  obtain ⟨ts⟩ := p
  rw [Poly.Formed, formed_terms]
  constructor
  · rintro ⟨ordered, terms⟩
    exact ⟨ordered, fun t member => (rooted.formed_monomial t.1).mp (terms t member)⟩
  · rintro ⟨ordered, terms⟩
    exact ⟨ordered, fun t member => (rooted.formed_monomial t.1).mpr (terms t member)⟩

theorem formed_fraction (r : Fraction) : r.Formed I ↔ rooted.valuation.Regular r := by
  obtain ⟨num, den⟩ := r
  rw [Fraction.Formed, rooted.formed_poly, rooted.formed_poly, ← rooted.poly_value]
  constructor
  · rintro ⟨top, bottom, nonzero⟩
    exact ⟨top, bottom, nonzero⟩
  · rintro ⟨top, bottom, nonzero⟩
    exact ⟨top, bottom, nonzero⟩

theorem known_iff (a : Atom) : rooted.valuation.known a ↔ a.Formed I := Iff.rfl

theorem known_root (p : Poly) (k : Nat) : rooted.valuation.known (.root p k) ↔
    2 ≤ k ∧ fitsInt64 k = true ∧ rooted.valuation.AdmitsPoly p := by
  rw [known_iff, Atom.Formed, rooted.formed_poly]

theorem knowsAngles : rooted.valuation.KnowsAngles where
  imaginary := by simp only [known_iff, Atom.Formed]
  surd n _ := (rooted.known_root _ _).mpr ⟨le_rfl, rfl, .constant _⟩

theorem lawful : rooted.valuation.Lawful where
  imaginary _ := by
    change Atom.value I .imaginary ^ 2 = -1
    rw [Atom.value]
    exact rooted.imaginary
  root p k known := by
    have proper := ((rooted.known_root p k).mp known).1
    change Atom.value I (.root p k) ^ k = _
    rw [Atom.value, rooted.poly_value]
    split
    · rename_i two
      rw [two]
      exact rooted.sqrt_root _
    · exact rooted.root _ k (by omega)
  index p k known := ((rooted.known_root p k).mp known).2.1
  radicand p k known _ := ((rooted.known_root p k).mp known).2.2
  turn _ _ angle p found := by
    obtain ⟨admitted, value⟩ := rooted.unitRoot_value rfl rooted.knowsAngles found
    refine ⟨admitted, value.trans ?_⟩
    change I.apply .exp _ = I.apply .exp (_ * (Atom.value I .pi * Atom.value I .imaginary))
    rw [Atom.value, Atom.value, eq_ratCast]

/-- The values are under all laws of the normal form. -/
theorem complete : rooted.valuation.Complete where
  lawful := rooted.lawful
  invertible _ nonzero := nonzero
  turning := trivial
  inner := rooted.formed_monomial
  symbol _ := by simp only [known_iff, Atom.Formed]
  pi := by simp only [known_iff, Atom.Formed]
  imaginary := rooted.knowsAngles.imaginary
  root := rooted.known_root
  ln r := by rw [known_iff, Atom.Formed, rooted.formed_fraction]
  exp r := by rw [known_iff, Atom.Formed, rooted.formed_fraction]
  power b e := by rw [known_iff, Atom.Formed, rooted.formed_fraction, rooted.formed_fraction]
  power_ne_zero b e regular nonzero := by
    change Atom.value I (.power b e) ≠ 0
    rw [Atom.value]
    refine rooted.pow_ne_zero _ _ ?_
    obtain ⟨num, den⟩ := b
    rw [Fraction.value, ← rooted.poly_value, ← rooted.poly_value]
    exact div_ne_zero nonzero regular.nonzero

end Rooted

end Interpretation

end Discharge
