import Mathlib
import Discharge.Proofs.Canonical.Radicands
import Discharge.Proofs.Elementary.Angle

/-! What every polynomial of a normal form keeps, however deep it stands. An expression
that is normalised has no zero coefficient and no zero exponent in any exponent,
radicand or argument of its normal form; powers of i and of roots are reduced, and no
exponential has an exact angle left. -/

namespace Discharge

variable {max : Nat} {m : Monomial} {p q : Poly} {r : Fraction} {c : Rat}

/-! ## Parts of a polynomial -/

/-- The polynomial, and those in its exponents and in the arguments of its factors. -/
inductive Poly.PartOf (q : Poly) : Poly → Prop
  | whole : PartOf q q
  | exponent {p : Poly} {t : Monomial × Rat} (term : t ∈ p.terms) (inside : PartOf q t.1.exp) :
      PartOf q p
  | argument {p s : Poly} {t : Monomial × Rat} {a : Atom} {n : Int} (term : t ∈ p.terms)
      (member : (a, n) ∈ t.1.factors) (operand : s ∈ a.arguments) (inside : PartOf q s) :
      PartOf q p

/-- The polynomial stands above or below, or inside of them. -/
def Poly.Part (q : Poly) (r : Fraction) : Prop := q.PartOf r.num ∨ q.PartOf r.den

/-- Whatever a canonical polynomial is built of is canonical. -/
theorem Poly.canonical_of_partOf (part : q.PartOf p) (canonical : p.Canonical max) :
    q.Canonical max := by
  induction part with
  | whole => exact canonical
  | exponent term inside ih => exact ih (canonical.exponent term)
  | argument term member operand inside ih =>
    exact ih (Atom.canonical_arguments (canonical.factor term member) _ operand)

theorem Poly.canonical_of_part (part : q.Part r) (canonical : r.Canonical max) :
    q.Canonical max :=
  part.elim (canonical_of_partOf · canonical.belongs.num)
    (canonical_of_partOf · canonical.belongs.den)

/-! ## Exact angles -/

/-- The angles at which an exponential is evaluated, in half turns. -/
def ExactAngle (c : Rat) : Prop := ∃ z : ℤ, c = z * (1 / 6) ∨ c = z * (1 / 4)

/-- Every exact angle is a number of twelfths that has an exact value. -/
theorem ExactAngle.unitRoot (exact : ExactAngle c) : ∃ u, Poly.unitRoot? c = some u := by
  obtain ⟨z, angle⟩ := exact
  obtain ⟨m, twelfths, even⟩ : ∃ m : ℤ, c * 12 = m ∧ (m % 2 = 0 ∨ m % 3 = 0) := by
    rcases angle with rfl | rfl
    · exact ⟨2 * z, by push_cast; ring, .inl (by omega)⟩
    · exact ⟨3 * z, by push_cast; ring, .inr (by omega)⟩
  have integral : ((c - 2 * (c / 2).floor) * 12).den = 1 := by
    have whole : (c - 2 * (c / 2).floor) * 12 = ((m - 24 * (c / 2).floor : ℤ) : ℚ) := by
      push_cast
      rw [← twelfths]
      ring
    rw [whole, Rat.den_intCast]
  obtain ⟨step, -, count, split⟩ := Interpretation.Elementary.twelfths_spec integral
  have same : (m : ℚ) = ((step + 24 * (c / 2).floor : ℤ) : ℚ) := by
    rw [← twelfths, congrArg (· * 12) split]
    ring
  have turns : m = step + 24 * (c / 2).floor := by exact_mod_cast same
  have quarter : ∃ s, Poly.quarterAngle? (step % 6) = some s := by
    have exact : step % 6 = 0 ∨ step % 6 = 2 ∨ step % 6 = 3 ∨ step % 6 = 4 := by omega
    rcases exact with j | j | j | j
    all_goals
      rw [j]
      exact ⟨_, rfl⟩
  obtain ⟨s, quarter⟩ := quarter
  unfold Poly.unitRoot?
  simp only [integral, ne_eq, not_true_eq_false, if_false, count, quarter, Option.map_some]
  exact ⟨_, rfl⟩

theorem Poly.Ordered.coefficient_of_mem (ordered : p.Ordered) (member : (m, c) ∈ p.terms) :
    p.coefficient? m = some c := by
  obtain ⟨before, after, split⟩ := List.append_of_mem member
  have increasing := ordered.increasing
  rw [split] at increasing
  refine List.lookup_eq_some_iff.mpr ⟨before, after, split, fun t earlier => ?_⟩
  have less := (List.pairwise_append.mp increasing).2.2 t earlier (m, c) List.mem_cons_self
  rw [bne_iff_ne]
  rintro rfl
  rw [(Monomial.compare_eq_iff _ _).mpr rfl] at less
  cases less

/-! ## The invariant of the representation -/

/-- What normal forms keep, of one polynomial: no coefficient and no exponent is zero,
no power of i or of a root is left to be reduced, and no exponent has an exact multiple
of `i·π`. -/
structure Poly.Represented (p : Poly) : Prop where
  coefficient : ∀ t ∈ p.terms, t.2 ≠ 0
  exponent : ∀ t ∈ p.terms, ∀ f ∈ t.1.factors, f.2 ≠ 0
  imaginary : ∀ t ∈ p.terms, ∀ n, (.imaginary, n) ∈ t.1.factors → n = 1
  constantRoot : ∀ t ∈ p.terms, ∀ q k n, (.root q k, n) ∈ t.1.factors →
    q.constant?.isSome → 1 ≤ n ∧ n < (k : Nat)
  properRoot : ∀ t ∈ p.terms, ∀ q k n, (.root q k, n) ∈ t.1.factors →
    q.constant? = none → n < (k : Nat)
  angle : ∀ t ∈ p.terms, ∀ c, (.halfTurn, c) ∈ t.1.exp.terms → ¬ ExactAngle c

/-- An irreducible monomial has no exact angle left in its exponent. -/
theorem Monomial.Irreducible.inexact (irreducible : m.Irreducible) (ordered : m.exp.Ordered)
    (member : (halfTurn, c) ∈ m.exp.terms) : ¬ ExactAngle c := by
  intro exact
  obtain ⟨u, found⟩ := exact.unitRoot
  have turned := irreducible.turned
  rw [ordered.coefficient_of_mem member, Option.bind_some, found] at turned
  cases turned

theorem Poly.Canonical.represented (canonical : p.Canonical max) : p.Represented where
  coefficient t term := (Vocabulary.canonical_poly.mp canonical).1.ordered.nonzero t term
  exponent t term := (canonical.monomial term).2.nonzero
  imaginary t term n member := by
    have irreducible := (canonical.monomial term).2
    exact (Monomial.settled_imaginary (irreducible.settled _ member)).resolve_left
      (irreducible.nonzero _ member)
  constantRoot t term q k n member constant := by
    obtain ⟨c, constant⟩ := Option.isSome_iff_exists.mp constant
    have irreducible := (canonical.monomial term).2
    have proper := (Atom.canonical_root.mp (canonical.factor term member)).1
    have nonzero : n ≠ 0 := irreducible.nonzero _ member
    obtain ⟨nonneg, less⟩ :=
      Monomial.settled_root constant proper (irreducible.settled _ member)
    exact ⟨by omega, less⟩
  properRoot t term q k n member proper := by
    have below := (canonical.monomial term).2.below _ member
    by_contra reached
    simp [Monomial.excess?, proper, not_lt.mp reached] at below
  angle t term c member :=
    (canonical.monomial term).2.inexact (canonical.monomial term).1.exponent member

/-- Normalisation restores the invariant at every depth: in the numerator, in the
denominator, and in every polynomial inside of them. -/
theorem normal_forms_represented (max : Nat) (bounded : max ≤ 4294967295) (e : Expr)
    (r : Fraction) (ran : Fraction.ofExpr max e = .ok r) (q : Poly) (part : q.Part r) :
    q.Represented := by
  have fits : fitsInt64 max = true := by
    rw [Monomial.fitsInt64_iff]
    omega
  exact (Poly.canonical_of_part part ((Fraction.ofExpr_canonical fits e).of_ok ran)).represented

/-- `exp(sqrt(1 + x)^3 + i·π/3)`. -/
def turnedSurd : Expr := .apply .exp (.sum [
  .power (.apply .sqrt (.sum [.number 1, .symbol "x"])) (.number 3),
  .product [.constant .imaginary, .constant .pi, .number (1 / 3)]])

/-- The radicand of its exponent, which the exponent is multiplied out by. -/
def innerRadicand : Poly := ⟨[(.one, 1), (.ofAtom (.symbol "x") 1, 1)]⟩

theorem normal_forms_represented_turnedSurd :
    ∃ r, Fraction.ofExpr 64 turnedSurd = .ok r ∧ innerRadicand.Part r ∧
      ∀ q : Poly, q.Part r → q.Represented := by
  let exponent : Poly := ⟨[(⟨[(.symbol "x", 1), (.root innerRadicand 2, 1)], .zero⟩, 1),
    (⟨[(.root innerRadicand 2, 1)], .zero⟩, 1)]⟩
  let r : Fraction := .ofPoly ⟨[(⟨[], exponent⟩, 1 / 2),
    (⟨[(.imaginary, 1), (.root (.constant 3) 2, 1)], exponent⟩, 1 / 2)]⟩
  have ran : Fraction.ofExpr 64 turnedSurd = .ok r := by decide +kernel
  have inside : innerRadicand.Part r :=
    .inl (.exponent List.mem_cons_self (.argument List.mem_cons_self
      (List.mem_cons_of_mem _ (List.mem_singleton_self _)) (List.mem_singleton_self _) .whole))
  exact ⟨r, ran, inside, normal_forms_represented 64 (by decide) turnedSurd r ran⟩

end Discharge
