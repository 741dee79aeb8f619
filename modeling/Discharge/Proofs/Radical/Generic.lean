import Mathlib
import Discharge.Proofs.Canonical.Exact
import Discharge.Proofs.Radical.Exponents
import Discharge.Proofs.Rational.Uniqueness

/-! Polynomials in symbols and radicals. Symbols stand for the variables of the
field of rational functions over the reals, and roots of positive integers for
their real roots. If the radicals are independent, then different settled
monomials have linearly independent values, and only the empty settled
polynomial has the value zero. -/

namespace Discharge

/-- The field of rational functions over the reals, with texts as variables. -/
abbrev RealFunction : Type := FractionRing (MvPolynomial String ℝ)

namespace RealFunction

open Monomial (Increasing exponentIn)
open Radical (radicals radicals_apply radicals_root radicals_support)
open RationalFunction (exponents exponents_apply)

/-- Rationals act on rational functions as constant polynomials. -/
noncomputable instance : Algebra ℚ RealFunction := OreLocalization.instAlgebra

instance : NoZeroDivisors (MvPolynomial String ℝ) := inferInstance

instance : IsDomain (MvPolynomial String ℝ) := inferInstance

/-- A variable as a rational function. -/
noncomputable def var (s : String) : RealFunction :=
  algebraMap (MvPolynomial String ℝ) RealFunction (.X s)

/-- The value of the root of a constant. -/
noncomputable def rootValue (p : Poly) (k : ℕ) : RealFunction :=
  algebraMap ℝ RealFunction ((((p.constant?.getD 0 : ℚ) : ℝ)) ^ (1 / k : ℝ))

/-- The atoms of the class: some symbols, and the roots of a system of radicals. -/
def Known (R : Set (ℕ × ℕ)) (S : Set String) (a : Atom) : Prop :=
  (∃ s ∈ S, a = .symbol s) ∨
    ∃ b ∈ R, fitsInt64 b.2 = true ∧ a = .root (.constant ((b.1 : ℕ) : ℚ)) b.2

/-- A symbol is a variable, and a root of a constant a real root. -/
noncomputable def valuation (R : Set (ℕ × ℕ)) (S : Set String) : Valuation RealFunction where
  atom
    | .symbol s => var s
    | .root p k => rootValue p k
    | _ => 0
  exp _ := 1
  exp_zero := rfl
  exp_add _ _ := (one_mul 1).symm
  known := Known R S
  invertible a := (match a with
    | .symbol s => var s
    | .root p k => rootValue p k
    | _ => 0) ≠ 0
  isUnit _ nonzero := nonzero.isUnit
  turning := False

variable {R : Set (ℕ × ℕ)} {S : Set String}

theorem rootValue_constant (b : ℕ × ℕ) :
    rootValue (.constant ((b.1 : ℕ) : ℚ)) b.2 = algebraMap ℝ RealFunction (Radical.value b) := by
  rw [rootValue, Poly.constant?_constant, Option.getD_some, Rat.cast_natCast, Radical.value]

/-- The laws hold of the radicals of the system. -/
theorem lawful_of_known (system : Radical.Independent R) {v : Valuation RealFunction}
    (atoms : v.atom = (valuation R S).atom) (known : v.known = Known R S)
    (still : v.turning = False) : v.Lawful where
  imaginary occurs := by
    rw [known] at occurs
    rcases occurs with ⟨s, -, impossible⟩ | ⟨b, -, -, impossible⟩ <;> cases impossible
  root p k occurs := by
    rw [known] at occurs
    rcases occurs with ⟨s, -, impossible⟩ | ⟨b, member, -, same⟩
    · cases impossible
    · obtain ⟨rfl, rfl⟩ := Atom.root.inj same
      have proper := system.proper b member
      rw [atoms]
      change rootValue _ _ ^ b.2 = _
      rw [rootValue_constant, ← map_pow, Radical.value_pow (by omega), Valuation.poly_constant]
      simp
  index p k occurs := by
    rw [known] at occurs
    rcases occurs with ⟨s, -, impossible⟩ | ⟨b, -, fits, same⟩
    · cases impossible
    · obtain ⟨-, rfl⟩ := Atom.root.inj same
      exact fits
  radicand p k occurs proper := by
    rw [known] at occurs
    rcases occurs with ⟨s, -, impossible⟩ | ⟨b, -, -, same⟩
    · cases impossible
    · obtain ⟨rfl, -⟩ := Atom.root.inj same
      rw [Poly.constant?_constant] at proper
      cases proper
  turn turning := by
    rw [still] at turning
    exact turning.elim

theorem dividing (system : Radical.Independent R) : (valuation R S).Dividing where
  lawful := lawful_of_known system rfl rfl rfl
  nonnegative := lawful_of_known system rfl rfl rfl
  invertible _ nonzero := nonzero

/-! ## Exponents of radicals -/

theorem Known.rootIn {a : Atom} (known : Known R S a) : a.RootIn R := by
  rcases known with ⟨s, -, rfl⟩ | ⟨b, member, -, rfl⟩
  · trivial
  · exact ⟨b.1, rfl, member⟩

variable {m n : Monomial} {p : Poly}

theorem rootIn_of_admits (admitted : (valuation R S).Admits m) : ∀ f ∈ m.factors, f.1.RootIn R :=
  fun f member => (admitted.factor f member).known.rootIn

theorem count_radical (admitted : (valuation R S).Admits m) (b : ℕ × ℕ) :
    radicals m.factors b = m.count (.root (.constant ((b.1 : ℕ) : ℚ)) b.2) :=
  radicals_apply admitted.increasing (rootIn_of_admits admitted) b

/-- The exponents of a settled monomial are reduced. -/
theorem radicals_reduced (system : Radical.Independent R) (admitted : (valuation R S).Admits m)
    (settled : m.Settled) : Radical.Reduced R (radicals m.factors) :=
  Radical.radicals_reduced system admitted.increasing (rootIn_of_admits admitted) settled

/-! ## Values of monomials -/

/-- The value that exponents of radicals and of symbols stand for. -/
noncomputable def family (x : (ℕ × ℕ →₀ ℤ) × (String →₀ ℤ)) : RealFunction :=
  Radical.product x.1 • laurentOver ℝ x.2

/-- The values of different reduced exponents are linearly independent. -/
theorem family_linearIndepOn (system : Radical.Independent R) :
    LinearIndepOn ℚ family { x | Radical.Reduced R x.1 } := by
  have independent := linearIndependent_smul system.linearIndependent
    (laurentOver_linearIndependent ℝ)
  let split : { x : (ℕ × ℕ →₀ ℤ) × (String →₀ ℤ) | Radical.Reduced R x.1 } →
      { e // Radical.Reduced R e } × (String →₀ ℤ) := fun x => (⟨x.1.1, x.2⟩, x.1.2)
  have injective : Function.Injective split := by
    intro x y same
    have first := congrArg (fun z => z.1.1) same
    have second := congrArg Prod.snd same
    exact Subtype.ext (Prod.ext first second)
  exact independent.comp split injective

/-- The exponents of a monomial. -/
noncomputable def index (m : Monomial) : (ℕ × ℕ →₀ ℤ) × (String →₀ ℤ) :=
  (radicals m.factors, exponents m.factors)

theorem factors_eq_family (system : Radical.Independent R) {fs : List (Atom × Int)}
    (increasing : Increasing fs) (each : ∀ f ∈ fs, (valuation R S).AdmitsFactor f) :
    (valuation R S).factors fs = family (radicals fs, exponents fs) := by
  induction fs with
  | nil => simp [family, radicals, exponents, Radical.product, laurentOver]
  | cons f fs ih =>
    obtain ⟨a, n⟩ := f
    obtain ⟨-, rest⟩ := Monomial.increasing_cons.mp increasing
    obtain ⟨head, tail⟩ := List.forall_mem_cons.mp each
    rw [Valuation.factors_cons, ih rest tail, intPower_eq_zpow]
    rcases head.known with ⟨s, -, rfl⟩ | ⟨b, member, -, rfl⟩
    · rw [radicals, exponents, family, family, laurentOver_add, laurentOver_single]
      exact mul_smul_comm _ _ _
      intro p k m root
      cases root
    · have others : ∀ c ∈ (radicals fs).support, 0 < c.1 := fun c occurs =>
        system.positive c (radicals_support rest (fun f inside => (tail f inside).known.rootIn) occurs).1
      rw [radicals_root, exponents, family, family,
        Radical.product_single_add (system.positive b member) n others]
      change rootValue _ _ ^ n * _ = _
      rw [rootValue_constant, ← map_zpow₀, ← Algebra.smul_def, smul_smul]
      intro s m symbol
      cases symbol

theorem monomial_eq_family (system : Radical.Independent R) (admitted : (valuation R S).Admits m) :
    (valuation R S).monomial m = family (index m) := by
  rw [Valuation.monomial_eq, factors_eq_family system admitted.increasing admitted.factor]
  exact mul_one _

theorem index_injective (left : (valuation R S).Admits m) (right : (valuation R S).Admits n)
    (same : index m = index n) : m = n := by
  have factors : m.factors = n.factors := by
    refine Valuation.factors_eq_of_counts left right ?_
    rintro a (⟨s, -, rfl⟩ | ⟨b, -, -, rfl⟩)
    · rw [Monomial.count_eq, Monomial.count_eq, ← exponents_apply left.increasing,
        ← exponents_apply right.increasing]
      exact congrArg (fun x => x.2 s) same
    · rw [← count_radical left, ← count_radical right]
      exact congrArg (fun x => x.1 b) same
  have left' : m.exp = .zero := left.turning.resolve_right id
  have right' : n.exp = .zero := right.turning.resolve_right id
  obtain ⟨fs, e⟩ := m
  obtain ⟨gs, f⟩ := n
  obtain rfl : fs = gs := factors
  exact congrArg (Monomial.mk fs) (left'.trans right'.symm)

/-! ## Values of polynomials -/

/-- The values of different settled monomials are linearly independent. -/
theorem monomial_linearIndepOn (system : Radical.Independent R) :
    LinearIndepOn ℚ (valuation R S).monomial { m | (valuation R S).Admits m ∧ m.Settled } := by
  let exponents : { m | (valuation R S).Admits m ∧ m.Settled } →
      { x : (ℕ × ℕ →₀ ℤ) × (String →₀ ℤ) | Radical.Reduced R x.1 } :=
    fun m => ⟨index m.1, radicals_reduced system m.2.1 m.2.2⟩
  have injective : Function.Injective exponents := fun m n same =>
    Subtype.ext (index_injective m.2.1 n.2.1 (congrArg Subtype.val same))
  have independent := LinearIndependent.comp (family_linearIndepOn system) exponents injective
  have values : (fun m : { m | (valuation R S).Admits m ∧ m.Settled } =>
      (valuation R S).monomial m.1) = fun m => family (index m.1) :=
    funext fun m => monomial_eq_family system m.2.1
  rw [LinearIndepOn, values]
  exact independent

/-- Only the empty settled polynomial has the value zero. -/
theorem faithful (system : Radical.Independent R) : (valuation R S).Faithful Poly.Settled where
  dividing := dividing system
  closed := Poly.settledClass
  isZero _ admitted settled zero :=
    Valuation.isZero_of_independent (monomial_linearIndepOn system) admitted.ordered
      (fun t member => ⟨admitted.all t member, settled t member⟩) zero

end RealFunction

end Discharge
