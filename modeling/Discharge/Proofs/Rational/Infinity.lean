import Mathlib
import Discharge.Proofs.Rational.Growth

/-! Limits of rational functions at infinity are exact. The dominant groups of
numerator and denominator are the leading terms of two polynomials whose quotient
is the function, so that their degrees and leading coefficients decide the limit.
At minus infinity the function is the one with the sign of the variable changed. -/

namespace Discharge

open Failure (IsRefusal)

/-! ## Degrees of reduced fractions -/

namespace Univariate

open Polynomial

variable {K : Type*} [Field K] {N D : K[X]}

end Univariate

namespace RationalFunction

open Limit Univariate
open scoped Polynomial

variable {x : String} {r s : Fraction} {p : Poly} {ts : List (Monomial × Rat)} {g : Group}
  {f : RationalFunction} {e b : Expr} {xs : List Expr} {l : Nat}

/-! ## Leading terms -/

/-- Cleared of negative powers a sum of terms is a polynomial, and the terms with
one exponent make up one of its coefficients. -/
theorem exists_polynomial (each : ∀ t ∈ ts, valuation.Admits t.1)
    (above : ∀ t ∈ ts, -(l : Int) ≤ t.1.count (.symbol x)) :
    ∃ P : (Coefficients x)[X],
      (along x).terms ts * RatFunc.X ^ (l : Int) = algebraMap _ (RatFunc (Coefficients x)) P ∧
      ∀ k : Nat, (along x).terms (slice x ts (k - l)) * RatFunc.X ^ (l : Int) =
        RatFunc.C (P.coeff k) * RatFunc.X ^ (k : Int) := by
  induction ts with
  | nil => exact ⟨0, by simp, fun k => by simp [slice]⟩
  | cons t ts ih =>
    obtain ⟨m, q⟩ := t
    obtain ⟨head, tail⟩ := List.forall_mem_cons.mp each
    obtain ⟨least, above⟩ := List.forall_mem_cons.mp above
    obtain ⟨P, value, coefficients⟩ := ih tail above
    obtain ⟨c, -, monomial⟩ := monomial_along x head
    obtain ⟨n, shifted⟩ : ∃ n : Nat, m.count (.symbol x) + l = n :=
      Int.eq_ofNat_of_zero_le (by dsimp only at least; omega)
    have nonzero : (RatFunc.X : RatFunc (Coefficients x)) ≠ 0 := RatFunc.X_ne_zero
    have term : algebraMap ℚ _ q * (along x).monomial m * RatFunc.X ^ (l : Int) =
        RatFunc.C (algebraMap ℚ _ q * c) * RatFunc.X ^ (n : Int) := by
      rw [monomial, algebraMap_literal, map_mul, mul_assoc, mul_assoc, mul_assoc,
        ← zpow_add₀ nonzero, shifted]
    refine ⟨.C (algebraMap ℚ _ q * c) * .X ^ n + P, ?_, fun k => ?_⟩
    · rw [Valuation.terms_cons, add_mul, value, term, map_add (algebraMap _ _),
        map_mul (algebraMap _ _), map_pow, RatFunc.algebraMap_C, RatFunc.algebraMap_X, zpow_natCast]
    · rw [Polynomial.coeff_add, Polynomial.coeff_C_mul, Polynomial.coeff_X_pow, slice,
        List.filter_cons, map_add, add_mul, ← coefficients k, slice]
      by_cases own : k = n
      · subst own
        rw [if_pos (by simp; omega), if_pos rfl, mul_one, Valuation.terms_cons, add_mul, term]
      · rw [if_neg (by simp; omega), if_neg own, mul_zero, map_zero, zero_mul, zero_add]

/-- A polynomial with the sign of a variable changed. -/
noncomputable def reflectPolynomial (x : String) :
    MvPolynomial String ℚ →+* MvPolynomial String ℚ :=
  MvPolynomial.eval₂Hom MvPolynomial.C fun s => if s = x then -.X s else .X s

theorem reflectPolynomial_involutive (x : String) : Function.Involutive (reflectPolynomial x) := by
  refine RingHom.congr_fun (f := (reflectPolynomial x).comp (reflectPolynomial x)) (g := .id _) ?_
  refine MvPolynomial.ringHom_ext (fun q => by simp [reflectPolynomial]) fun s => ?_
  by_cases own : s = x
  · simp [reflectPolynomial, own]
  · simp [reflectPolynomial, own]

/-- A rational function with the sign of a variable changed. -/
noncomputable def reflect (x : String) : RationalFunction →+* RationalFunction :=
  IsFractionRing.lift
    (g := (algebraMap (MvPolynomial String ℚ) RationalFunction).comp (reflectPolynomial x))
    ((IsFractionRing.injective _ _).comp (reflectPolynomial_involutive x).injective)

theorem reflect_var (x s : String) : reflect x (var s) = if s = x then -var s else var s := by
  rw [reflect, var, IsFractionRing.lift_algebraMap]
  by_cases own : s = x
  · simp [reflectPolynomial, own]
  · simp [reflectPolynomial, own]

theorem reflect_literal (x : String) (q : ℚ) :
    reflect x (algebraMap ℚ RationalFunction q) = algebraMap ℚ RationalFunction q :=
  RingHom.congr_fun (RingHom.ext_rat ((reflect x).comp (algebraMap ℚ _)) (algebraMap ℚ _)) q

/-- A literal power commutes with the change of sign. -/
theorem integerPower_reflect {n : Int} {y z : RationalFunction}
    (power : integerPower y n = some z) :
    integerPower (reflect x y) n = some (reflect x z) := by
  obtain ⟨regular, rfl⟩ := integerPower_eq_some.mp power
  exact integerPower_eq_some.mpr ⟨by rwa [map_eq_zero], (map_zpow₀ _ _ _).symm⟩

mutual
/-- The expression with the symbol replaced by its negative denotes the rational
function with the sign of the variable changed. -/
theorem denote_reflected (x : String) : ∀ {e : Expr} {f : RationalFunction}, e.denote = some f →
    (e.substitute x (-.symbol x)).denote = some (reflect x f)
  | .number q, _, denotes => by
    rw [Expr.denote_number] at denotes
    cases denotes
    rw [Expr.substitute, Expr.denote_number, reflect_literal]
  | .symbol s, _, denotes => by
    rw [Expr.denote_symbol] at denotes
    cases denotes
    rw [Expr.substitute, reflect_var]
    split
    · rename_i own
      refine Expr.denote_product_eq_some.mpr ⟨[algebraMap ℚ _ (-1), var s], ?_, by simp⟩
      rw [own]
      exact Expr.denoteAll_cons_eq_some.mpr ⟨_, [var x], Expr.denote_number _,
        Expr.denoteAll_singleton_eq_some.mpr ⟨_, Expr.denote_symbol x, rfl⟩, rfl⟩
    · exact Expr.denote_symbol s
  | .sum xs, _, denotes => by
    obtain ⟨fs, all, rfl⟩ := Expr.denote_sum_eq_some.mp denotes
    rw [Expr.substitute]
    exact Expr.denote_sum_eq_some.mpr ⟨_, denoteAll_reflected x all, (map_list_sum _ _).symm⟩
  | .product xs, _, denotes => by
    obtain ⟨fs, all, rfl⟩ := Expr.denote_product_eq_some.mp denotes
    rw [Expr.substitute]
    exact Expr.denote_product_eq_some.mpr ⟨_, denoteAll_reflected x all, (map_list_prod _ _).symm⟩
  | .power b e, _, denotes => by
    cases Expr.isRational_of_denote denotes with
    | power n base =>
      rw [Expr.denote_power] at denotes
      obtain ⟨y, denotes, power⟩ := Option.bind_eq_some_iff.mp denotes
      rw [Expr.substitute, Expr.int, Expr.substitute, ← Expr.int, Expr.denote_power,
        denote_reflected x denotes]
      exact integerPower_reflect power
  | .constant c, _, denotes => nomatch Expr.isRational_of_denote denotes
  | .apply g y, _, denotes => nomatch Expr.isRational_of_denote denotes

theorem denoteAll_reflected (x : String) : ∀ {xs : List Expr} {fs : List RationalFunction},
    Expr.denoteAll xs = some fs →
      Expr.denoteAll (Expr.substituteAll xs x (-.symbol x)) = some (fs.map (reflect x))
  | [], _, denotes => by
    rw [Expr.denoteAll_nil] at denotes
    cases denotes
    rw [Expr.substituteAll, Expr.denoteAll_nil, List.map_nil]
  | y :: ys, _, denotes => by
    obtain ⟨f, gs, head, tail, rfl⟩ := Expr.denoteAll_cons_eq_some.mp denotes
    rw [Expr.substituteAll]
    exact Expr.denoteAll_cons_eq_some.mpr
      ⟨_, _, denote_reflected x head, denoteAll_reflected x tail, rfl⟩
end

theorem denote_of_mem {fs : List RationalFunction} (denotes : Expr.denoteAll xs = some fs)
    (member : b ∈ xs) : ∃ g, b.denote = some g := by
  induction xs generalizing fs with
  | nil => cases member
  | cons y ys ih =>
    obtain ⟨f, gs, head, tail, -⟩ := Expr.denoteAll_cons_eq_some.mp denotes
    rcases List.mem_cons.mp member with rfl | inside
    · exact ⟨f, head⟩
    · exact ih tail inside

theorem denote_of_subterm (inside : Expr.Subterm b e) (denotes : e.denote = some f) :
    ∃ g, b.denote = some g := by
  induction inside generalizing f with
  | refl => exact ⟨f, denotes⟩
  | sum member _ ih =>
    obtain ⟨fs, all, -⟩ := Expr.denote_sum_eq_some.mp denotes
    obtain ⟨g, value⟩ := denote_of_mem all member
    exact ih value
  | product member _ ih =>
    obtain ⟨fs, all, -⟩ := Expr.denote_product_eq_some.mp denotes
    obtain ⟨g, value⟩ := denote_of_mem all member
    exact ih value
  | base _ ih =>
    cases Expr.isRational_of_denote denotes with
    | power n base =>
      rw [Expr.denote_power] at denotes
      obtain ⟨y, value, -⟩ := Option.bind_eq_some_iff.mp denotes
      exact ih value
  | exponent _ ih =>
    cases Expr.isRational_of_denote denotes with
    | power n base => exact ih (Expr.denote_number n)
  | argument _ _ => cases Expr.isRational_of_denote denotes

/-- What denotes a rational function is normalised unless that is refused. -/
theorem normalises_of_denote (max : Nat) (denotes : e.denote = some f) :
    Ensures (Fraction.ofExpr max e) (Represents · f) IsRefusal := by
  refine ((normalises max (Expr.isRational_of_denote denotes)).mono ?_).mono_error ?_
  · rintro r ⟨g, value, represents⟩
    rw [denotes] at value
    cases value
    exact represents
  · rintro failure (large | ⟨-, b, n, inside, negative, zero⟩)
    · exact large
    · -- A power of zero with a negative exponent has no value.
      obtain ⟨g, value⟩ := denote_of_subterm inside denotes
      rw [Expr.denote_power, zero] at value
      exact absurd ⟨negative, rfl⟩ (integerPower_eq_some.mp value).1

/-! ## The oracle -/

end RationalFunction

open RationalFunction Univariate

variable {x : String} {f : RationalFunction} {F : RatFunc (Coefficients x)} {a b : Outcome Expr}

end Discharge
