import Discharge.Proofs.Normal.Quotient
import Discharge.Proofs.Normal.Uniqueness
import Discharge.Proofs.Rational.Laurent

/-! A polynomial in symbols is determined by its value. Symbols stand for the
variables of the field of rational functions; monomials that differ then have
linearly independent values, and an increasing list of terms is determined by
its coefficients. -/

namespace Discharge

namespace RationalFunction

open Monomial (Increasing exponentIn)

/-! ## Symbols as variables -/

/-- A symbol is a variable; nothing else may occur. -/
noncomputable def valuation : Valuation RationalFunction where
  atom
    | .symbol s => var s
    | _ => 0
  exp _ := 1
  exp_zero := rfl
  exp_add _ _ := (one_mul 1).symm
  known a := ∃ s, a = .symbol s
  invertible a := ∃ s, a = .symbol s
  isUnit := by
    rintro a ⟨s, rfl⟩
    exact (var_ne_zero s).isUnit
  turning := False

/-- No law is asked of the symbols. -/
theorem lawful_of_symbols {A : Type*} [CommRing A] [Algebra ℚ A] {v : Valuation A}
    (symbols : v.known = valuation.known) (still : v.turning = False) : v.Lawful where
  imaginary known := by
    rw [symbols] at known
    obtain ⟨s, impossible⟩ := known
    cases impossible
  root p k known := by
    rw [symbols] at known
    obtain ⟨s, impossible⟩ := known
    cases impossible
  index p k known := by
    rw [symbols] at known
    obtain ⟨s, impossible⟩ := known
    cases impossible
  radicand p k known := by
    rw [symbols] at known
    obtain ⟨s, impossible⟩ := known
    cases impossible
  turn turning := by
    rw [still] at turning
    exact turning.elim

theorem dividing : valuation.Dividing where
  lawful := lawful_of_symbols rfl rfl
  nonnegative := lawful_of_symbols rfl rfl
  invertible a nonzero := by
    cases a with
    | symbol s => exact ⟨s, rfl⟩
    | _ => exact absurd rfl nonzero

/-! ## Exponent vectors -/

/-- The exponents of the symbols. -/
noncomputable def exponents : List (Atom × Int) → String →₀ ℤ
  | [] => 0
  | (.symbol s, n) :: fs => .single s n + exponents fs
  | _ :: fs => exponents fs

theorem exponents_apply {fs : List (Atom × Int)} (increasing : Increasing fs) (s : String) :
    exponents fs s = exponentIn fs (.symbol s) := by
  induction fs with
  | nil => simp [exponents]
  | cons f fs ih =>
    obtain ⟨a, n⟩ := f
    obtain ⟨behind, rest⟩ := Monomial.increasing_cons.mp increasing
    rw [Monomial.exponentIn_cons]
    cases a with
    | symbol t =>
      rw [exponents, Finsupp.add_apply, ih rest]
      by_cases same : s = t
      · subst same
        rw [if_pos rfl, Finsupp.single_eq_same, Monomial.exponentIn_of_behind behind, add_zero]
      · have other : Atom.symbol s ≠ .symbol t := fun equal => same (Atom.symbol.inj equal)
        rw [if_neg other, Finsupp.single_eq_of_ne same, zero_add]
    | _ => exact (ih rest).trans (if_neg nofun).symm

theorem factors_eq_laurent {fs : List (Atom × Int)}
    (each : ∀ f ∈ fs, valuation.AdmitsFactor f) : valuation.factors fs = laurent (exponents fs) := by
  induction fs with
  | nil => simp [exponents, laurent]
  | cons f fs ih =>
    obtain ⟨head, tail⟩ := List.forall_mem_cons.mp each
    obtain ⟨a, n⟩ := f
    obtain ⟨s, rfl⟩ := head.known
    rw [Valuation.factors_cons, ih tail, exponents, laurent_add, laurent_single, intPower_eq_zpow]
    rfl

variable {m n : Monomial} {p q : Poly}

theorem monomial_eq_laurent (admitted : valuation.Admits m) :
    valuation.monomial m = laurent (exponents m.factors) := by
  rw [Valuation.monomial_eq, factors_eq_laurent admitted.factor]
  exact mul_one _

theorem exp_eq_zero (admitted : valuation.Admits m) : m.exp = .zero :=
  admitted.turning.resolve_right id

/-- A monomial in symbols is determined by its exponents. -/
theorem exponents_injective (left : valuation.Admits m) (right : valuation.Admits n)
    (same : exponents m.factors = exponents n.factors) : m = n := by
  have factors : m.factors = n.factors := by
    refine Valuation.factors_eq_of_counts left right ?_
    rintro a ⟨s, rfl⟩
    rw [Monomial.count_eq, Monomial.count_eq, ← exponents_apply left.increasing,
      ← exponents_apply right.increasing, same]
  obtain ⟨fs, e⟩ := m
  obtain ⟨gs, f⟩ := n
  have left' : e = .zero := exp_eq_zero left
  have right' : f = .zero := exp_eq_zero right
  rw [left', right']
  exact congrArg (Monomial.mk · Poly.zero) factors

/-! ## Polynomials in symbols -/

/-- The values of different monomials in symbols are linearly independent. -/
theorem monomial_linearIndepOn : LinearIndepOn ℚ valuation.monomial { m | valuation.Admits m } := by
  have injective : Function.Injective
      fun m : { m | valuation.Admits m } => exponents m.1.factors :=
    fun m n same => Subtype.ext (exponents_injective m.2 n.2 same)
  have independent := laurent_linearIndependent.comp _ injective
  have values : (fun m : { m | valuation.Admits m } => valuation.monomial m.1) =
      laurent ∘ fun m : { m | valuation.Admits m } => exponents m.1.factors :=
    funext fun m => monomial_eq_laurent m.2
  rwa [LinearIndepOn, values]

/-- A polynomial in symbols is determined by its value. -/
theorem poly_injective (left : valuation.AdmitsPoly p) (right : valuation.AdmitsPoly q)
    (same : valuation.poly p = valuation.poly q) : p = q :=
  Valuation.poly_injective monomial_linearIndepOn left.ordered right.ordered left.all right.all same

/-- A polynomial in symbols has the value zero only if it has no term. -/
theorem poly_eq_zero_iff (admitted : valuation.AdmitsPoly p) :
    valuation.poly p = 0 ↔ p.isZero = true := by
  constructor
  · intro zero
    rw [poly_injective admitted .zero (by rw [zero, Valuation.poly_zero])]
    rfl
  · exact Valuation.poly_of_isZero

end RationalFunction

end Discharge
