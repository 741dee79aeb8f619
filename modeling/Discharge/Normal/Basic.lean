/-!
The canonical form of an expression.

A `Fraction` is a quotient of two sparse Laurent polynomials with rational
coefficients.  A monomial is a product of integer powers of atoms times the
exponential of a polynomial; an atom is a symbol, π, i, a root, a logarithm, a
power with a symbolic exponent, or an exponential whose argument is a proper
quotient.  The four types contain each other.

Factors and terms are listed in increasing order, by one total order on each of
the four types (`Atom.compare` and its companions): kinds of atoms in the order
in which they are declared, lists element by element with a proper beginning
first.  `Atom.compare_eq_iff` and its companions say that only equal values
compare as equal, so equality is decidable.
-/

namespace Discharge

mutual
/-- An indivisible factor of a monomial. -/
inductive Atom where
  | symbol (name : String)
  | pi
  | imaginary
  /-- The principal root of a polynomial, of an index of at least two. -/
  | root (radicand : Poly) (index : Nat)
  | ln (argument : Fraction)
  /-- A power whose exponent is not a rational constant. -/
  | power (base exponent : Fraction)
  /-- The exponential of a quotient with a non-constant denominator. -/
  | exp (argument : Fraction)

/-- A product of integer powers of atoms, times the exponential of `exp`. -/
structure Monomial where
  factors : List (Atom × Int)
  exp : Poly

/-- A sum of monomials with rational coefficients; the empty sum is zero. -/
structure Poly where
  terms : List (Monomial × Rat)

/-- A quotient of two polynomials. -/
structure Fraction where
  num : Poly
  den : Poly
end

/-! ## Order -/

/-- The order of the rationals as a three-way comparison. -/
def compareRat (p q : Rat) : Ordering := if p < q then .lt else if p = q then .eq else .gt

/-- The order of the integers as a three-way comparison. -/
def compareInt (m n : Int) : Ordering := if m < n then .lt else if m = n then .eq else .gt

/-- The order of texts by code points as a three-way comparison. -/
def compareText (s t : String) : Ordering := if s < t then .lt else if s = t then .eq else .gt

/-- The place of an atom's kind among the kinds. -/
def Atom.kind : Atom → Nat
  | .symbol _ => 0
  | .pi => 1
  | .imaginary => 2
  | .root .. => 3
  | .ln _ => 4
  | .power .. => 5
  | .exp _ => 6

mutual
/-- The order of atoms. -/
def Atom.compare : Atom → Atom → Ordering
  | .symbol s, .symbol t => compareText s t
  | .root p k, .root q l => (Poly.compare p q).then (compareInt k l)
  | .ln a, .ln b => Fraction.compare a b
  | .power a e, .power b f => (Fraction.compare a b).then (Fraction.compare e f)
  | .exp a, .exp b => Fraction.compare a b
  | a, b => compareInt a.kind b.kind

/-- The order of monomials: factors first, then the exponent. -/
def Monomial.compare : Monomial → Monomial → Ordering
  | ⟨fs, e⟩, ⟨gs, f⟩ => (compareFactors fs gs).then (Poly.compare e f)

/-- The order of polynomials. -/
def Poly.compare : Poly → Poly → Ordering
  | ⟨ts⟩, ⟨us⟩ => compareTerms ts us

/-- The order of fractions: numerators first, then denominators. -/
def Fraction.compare : Fraction → Fraction → Ordering
  | ⟨n, d⟩, ⟨m, e⟩ => (Poly.compare n m).then (Poly.compare d e)

/-- The order of lists of factors. -/
def compareFactors : List (Atom × Int) → List (Atom × Int) → Ordering
  | [], [] => .eq
  | [], _ :: _ => .lt
  | _ :: _, [] => .gt
  | (a, m) :: fs, (b, n) :: gs =>
    ((Atom.compare a b).then (compareInt m n)).then (compareFactors fs gs)

/-- The order of lists of terms. -/
def compareTerms : List (Monomial × Rat) → List (Monomial × Rat) → Ordering
  | [], [] => .eq
  | [], _ :: _ => .lt
  | _ :: _, [] => .gt
  | (a, p) :: ts, (b, q) :: us =>
    ((Monomial.compare a b).then (compareRat p q)).then (compareTerms ts us)
end

/-! ## Equality -/

theorem then_eq_iff (a b : Ordering) : a.then b = .eq ↔ a = .eq ∧ b = .eq := by
  cases a <;> simp

theorem compareRat_eq_iff (p q : Rat) : compareRat p q = .eq ↔ p = q := by
  unfold compareRat
  split
  · rename_i lt
    exact ⟨nofun, fun h => absurd (h ▸ lt) Rat.lt_irrefl⟩
  · split <;> simp_all

theorem compareInt_eq_iff (m n : Int) : compareInt m n = .eq ↔ m = n := by
  unfold compareInt
  split
  · rename_i lt
    exact ⟨nofun, fun h => absurd (h ▸ lt) (Int.lt_irrefl _)⟩
  · split <;> simp_all

theorem compareText_eq_iff (s t : String) : compareText s t = .eq ↔ s = t := by
  unfold compareText
  split
  · rename_i lt
    exact ⟨nofun, fun h => absurd (h ▸ lt) (String.lt_irrefl _)⟩
  · split <;> simp_all

mutual
theorem Atom.compare_eq_iff : ∀ a b : Atom, Atom.compare a b = .eq ↔ a = b
  | .symbol _, b => by
    cases b <;> simp [Atom.compare, Atom.kind, compareInt, compareText_eq_iff]
  | .pi, b => by cases b <;> simp [Atom.compare, Atom.kind, compareInt]
  | .imaginary, b => by cases b <;> simp [Atom.compare, Atom.kind, compareInt]
  | .root p _, b => by
    cases b with
    | root q l =>
      simp only [Atom.compare, then_eq_iff, compareInt_eq_iff, Poly.compare_eq_iff p,
        Atom.root.injEq, Int.ofNat_inj]
    | _ => simp [Atom.compare, Atom.kind, compareInt]
  | .ln a, b => by
    cases b <;> simp [Atom.compare, Atom.kind, compareInt, Fraction.compare_eq_iff a]
  | .power a e, b => by
    cases b <;> simp [Atom.compare, Atom.kind, compareInt, Fraction.compare_eq_iff a,
      Fraction.compare_eq_iff e]
  | .exp a, b => by
    cases b <;> simp [Atom.compare, Atom.kind, compareInt, Fraction.compare_eq_iff a]

theorem Monomial.compare_eq_iff : ∀ a b : Monomial, Monomial.compare a b = .eq ↔ a = b
  | ⟨fs, e⟩, ⟨gs, f⟩ => by
    simp [Monomial.compare, compareFactors_eq_iff fs gs, Poly.compare_eq_iff e f]

theorem Poly.compare_eq_iff : ∀ a b : Poly, Poly.compare a b = .eq ↔ a = b
  | ⟨ts⟩, ⟨us⟩ => by simp [Poly.compare, compareTerms_eq_iff ts us]

theorem Fraction.compare_eq_iff : ∀ a b : Fraction, Fraction.compare a b = .eq ↔ a = b
  | ⟨n, d⟩, ⟨m, e⟩ => by
    simp [Fraction.compare, Poly.compare_eq_iff n m, Poly.compare_eq_iff d e]

theorem compareFactors_eq_iff : ∀ a b : List (Atom × Int), compareFactors a b = .eq ↔ a = b
  | [], b => by cases b <;> simp [compareFactors]
  | _ :: _, [] => by simp [compareFactors]
  | (a, m) :: fs, (b, n) :: gs => by
    simp [compareFactors, compareInt_eq_iff, Atom.compare_eq_iff a b,
      compareFactors_eq_iff fs gs]

theorem compareTerms_eq_iff : ∀ a b : List (Monomial × Rat), compareTerms a b = .eq ↔ a = b
  | [], b => by cases b <;> simp [compareTerms]
  | _ :: _, [] => by simp [compareTerms]
  | (a, p) :: ts, (b, q) :: us => by
    simp [compareTerms, compareRat_eq_iff, Monomial.compare_eq_iff a b,
      compareTerms_eq_iff ts us]
end

instance : DecidableEq Atom := fun a b => decidable_of_iff _ (Atom.compare_eq_iff a b)

instance : DecidableEq Monomial := fun a b => decidable_of_iff _ (Monomial.compare_eq_iff a b)

instance : DecidableEq Poly := fun a b => decidable_of_iff _ (Poly.compare_eq_iff a b)

instance : DecidableEq Fraction := fun a b => decidable_of_iff _ (Fraction.compare_eq_iff a b)

end Discharge
