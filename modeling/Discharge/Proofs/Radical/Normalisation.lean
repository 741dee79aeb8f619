import Mathlib
import Discharge.Proofs.Elementary.Radical
import Discharge.Proofs.Interpretation
import Discharge.Proofs.Radical.Generic
import Discharge.Proofs.Subterm

/-! Normalisation of expressions with roots of positive rationals. If all
radicands that the roots are split into belong to an independent system of
radicals, then the canonical form has exactly the value of the expression, as a
rational function of its symbols over the reals. -/

namespace Discharge

/-! ## Roots of rationals -/

namespace Radical

/-- What is left under the root of a rational belongs to the system. -/
def Within (R : Set (ℕ × ℕ)) (c : ℚ) (k : ℕ) : Prop :=
  ∀ n ∈ (integerRoot (c.num.natAbs * Nat.pow c.den (k - 1)) k).2, (n, k) ∈ R

/-- The real root of an integer is the product of what it is split into. -/
theorem integerRoot_value {n k : ℕ} (positive : 0 < n) (proper : k ≠ 0) :
    ((integerRoot n k).1 : ℝ) * ((integerRoot n k).2.map fun p => value (p, k)).prod =
      (n : ℝ) ^ (1 / k : ℝ) := by
  have split := congrArg (Nat.cast (R := ℝ)) (integerRoot_split k positive).1
  have roots := Real.list_prod_map_rpow' (integerRoot n k).2 (fun p : ℕ => (p : ℝ))
    (fun _ _ => Nat.cast_nonneg _) (1 / k)
  rw [← Nat.cast_list_prod] at roots
  rw [Nat.cast_mul, Nat.cast_pow] at split
  change _ * ((integerRoot n k).2.map fun p : ℕ => (p : ℝ) ^ (1 / k : ℝ)).prod = _
  rw [roots, split, Real.mul_rpow (by positivity) (Nat.cast_nonneg _), one_div,
    Real.pow_rpow_inv_natCast (Nat.cast_nonneg _) proper]

/-- The same for the radicand of a rational, which has its denominator outside. -/
theorem integerRoot_radicand_value {c : ℚ} (positive : 0 < c) {k : ℕ} (proper : k ≠ 0) :
    let root := integerRoot (c.num.natAbs * Nat.pow c.den (k - 1)) k
    (root.1 : ℝ) * (root.2.map fun p => value (p, k)).prod = (c : ℝ) ^ (1 / k : ℝ) * c.den := by
  have integer : ((c.num.natAbs * Nat.pow c.den (k - 1) : ℕ) : ℝ) = c * c.den ^ k := by
    exact_mod_cast congrArg (Rat.cast (K := ℝ)) (radicand_eq positive proper)
  dsimp only
  rw [integerRoot_value (radicand_pos positive k) proper, integer,
    Real.mul_rpow (by exact_mod_cast positive.le) (by positivity), one_div,
    Real.pow_rpow_inv_natCast (Nat.cast_nonneg _) proper]

end Radical

namespace RealFunction

variable {R : Set (ℕ × ℕ)} {S : Set String} {c q : ℚ} {k max : ℕ}

theorem algebraMap_rat (q : ℚ) : algebraMap ℚ RealFunction q = algebraMap ℝ RealFunction q := by
  rw [eq_ratCast, map_ratCast]

theorem positiveRadical_value (positive : 0 < c) (proper : 2 ≤ k) (fits : fitsInt64 k = true)
    (within : Radical.Within R c k) :
    (valuation R S).AdmitsPoly (.positiveRadical c k) ∧
      (valuation R S).poly (.positiveRadical c k) =
        algebraMap ℝ RealFunction ((c : ℝ) ^ (1 / k : ℝ)) := by
  obtain ⟨admitted, value⟩ := Valuation.integerRadical_value (Radical.radicand_pos positive k)
    (v := valuation R S) fun n member => .inr ⟨(n, k), within n member, fits, rfl⟩
  refine ⟨admitted.scale _, ?_⟩
  have roots : ∀ n : ℕ, (valuation R S).atom (.root (.constant (n : Nat)) k) =
      algebraMap ℝ RealFunction (Radical.value (n, k)) := fun n => rootValue_constant (n, k)
  have root := Radical.integerRoot_radicand_value positive (by omega : k ≠ 0)
  have unit : ((mkRat 1 c.den : ℚ) : ℝ) * ((c : ℝ) ^ (1 / k : ℝ) * c.den) =
      (c : ℝ) ^ (1 / k : ℝ) := by
    have denominator : (c.den : ℝ) ≠ 0 := Nat.cast_ne_zero.mpr c.den_nz
    rw [Rat.mkRat_eq_div]
    push_cast
    field_simp
  rw [Poly.positiveRadical, Valuation.poly_scale, value]
  simp only [roots]
  rw [← Function.comp_def (algebraMap ℝ RealFunction), ← List.map_map, ← map_list_prod,
    algebraMap_rat, algebraMap_rat, Rat.cast_natCast, ← map_mul, root, ← map_mul, unit]

/-- The root of a positive rational. -/
theorem root_exact (positive : 0 < c) (proper : 2 ≤ k) (fits : fitsInt64 k = true)
    (within : Radical.Within R c k) :
    Yields ((Fraction.constant c).root k)
      ((valuation R S).Exact Poly.Settled · (algebraMap ℝ RealFunction ((c : ℝ) ^ (1 / k : ℝ)))) := by
  obtain ⟨admitted, value⟩ := positiveRadical_value positive proper fits within
  have settled : (Poly.positiveRadical c k).All Monomial.Settled :=
    (Poly.settled_integerRadical _ k).scale _
  have radical : Poly.rationalRadical c k = .ok (.positiveRadical c k) := by
    rw [Poly.rationalRadical, if_neg positive.ne', if_neg positive.not_gt]
  unfold Fraction.root
  rw [if_neg (by omega), if_neg (by omega), Fraction.constant?_constant, ← value]
  dsimp only
  rw [radical]
  exact .of_poly Poly.settledClass admitted settled

/-- A rational power of a positive rational: a root for the fractional part of the
exponent, and an integer power. -/
theorem powRat_exact (system : Radical.Independent R) (positive : 0 < c) (proper : q.den ≠ 1)
    (within : Radical.Within R c q.den) (bounded : max ≤ 4294967295) :
    Yields ((Fraction.constant c).powRat q max)
      ((valuation R S).Exact Poly.Settled · (algebraMap ℝ RealFunction ((c : ℝ) ^ (q : ℝ)))) := by
  have faithful := faithful (S := S) system
  have positive' : (0 : ℝ) < c := by exact_mod_cast positive
  unfold Fraction.powRat
  rw [if_neg proper]
  dsimp only
  rw [Rat.sub_intCast_den]
  split
  · trivial
  rename_i guard
  split
  · trivial
  split
  · trivial
  have index : 2 ≤ q.den := by
    have := q.den_pos
    omega
  have fits : fitsInt64 q.den = true := by
    rw [Monomial.fitsInt64_iff]
    omega
  have whole := Valuation.Exact.constant (v := valuation R S) Poly.settledClass c
  refine .bind (root_exact (S := S) positive index fits within) fun r root => ?_
  refine .bind (faithful.powInt_exact root _ max) fun s part => ?_
  refine .bind (faithful.powInt_exact whole _ max) fun t power => ?_
  refine (faithful.mul_exact part power).mono fun u final => ?_
  have exponent : (1 / q.den : ℝ) * (q - q.floor).num + q.floor = q := by
    have quotient : (1 / q.den : ℚ) * (q - q.floor).num + q.floor = q := by
      have fraction := Rat.num_div_den (q - q.floor)
      rw [Rat.sub_intCast_den] at fraction
      linear_combination fraction
    have cast := congrArg (Rat.cast (K := ℝ)) quotient
    push_cast at cast
    exact cast
  have value : (c : ℝ) ^ (q : ℝ) =
      ((c : ℝ) ^ (1 / q.den : ℝ)) ^ (q - q.floor).num * (c : ℝ) ^ q.floor := by
    rw [← Real.rpow_intCast, ← Real.rpow_mul positive'.le, ← Real.rpow_intCast (c : ℝ) q.floor,
      ← Real.rpow_add positive', exponent]
  rw [value, map_mul, map_zpow₀, map_zpow₀, ← algebraMap_rat]
  exact final

end RealFunction

/-! ## Expressions -/

/-- Expressions of numbers, symbols, sums, products, integer powers, and roots and
rational powers of positive rationals that are split into radicals of the system. -/
inductive Expr.IsRadical (R : Set (ℕ × ℕ)) (S : Set String) : Expr → Prop
  | number (q : Rat) : IsRadical R S (.number q)
  | symbol {s : String} : s ∈ S → IsRadical R S (.symbol s)
  | sum {xs : List Expr} : (∀ x ∈ xs, IsRadical R S x) → IsRadical R S (.sum xs)
  | product {xs : List Expr} : (∀ x ∈ xs, IsRadical R S x) → IsRadical R S (.product xs)
  | power {b : Expr} (n : Int) : IsRadical R S b → IsRadical R S (.power b (.int n))
  | sqrt {c : Rat} : 0 < c → Radical.Within R c 2 → IsRadical R S (.apply .sqrt (.number c))
  | root {c q : Rat} : 0 < c → q.den ≠ 1 → Radical.Within R c q.den →
      IsRadical R S (.power (.number c) (.number q))

theorem Expr.IsRadical.closed (R : Set (ℕ × ℕ)) (S : Set String) : Closed (IsRadical R S) where
  number := .number
  sum _ := ⟨fun | .sum each => each, .sum⟩
  product _ := ⟨fun | .product each => each, .product⟩

/-- Only the symbols that occur matter. -/
theorem Expr.IsRadical.of_symbols {R : Set (ℕ × ℕ)} {S T : Set String} {e : Expr}
    (inside : e.IsRadical R S) (symbols : ∀ s, Subterm (.symbol s) e → s ∈ T) :
    e.IsRadical R T := by
  induction inside with
  | number q => exact .number q
  | symbol _ => exact .symbol (symbols _ (.refl _))
  | sum _ ih => exact .sum fun x member => ih x member fun s occurs => symbols s (.sum member occurs)
  | product _ ih =>
    exact .product fun x member => ih x member fun s occurs => symbols s (.product member occurs)
  | power n _ ih => exact .power n (ih fun s occurs => symbols s (.base occurs))
  | sqrt positive within => exact .sqrt positive within
  | root positive proper within => exact .root positive proper within

namespace RealFunction

/-- The real number that a constant function is. -/
noncomputable def constantValue : RealFunction → ℝ := Function.invFun (algebraMap ℝ RealFunction)

theorem constantValue_algebraMap (y : ℝ) : constantValue (algebraMap ℝ RealFunction y) = y :=
  Function.leftInverse_invFun (algebraMap ℝ RealFunction).injective y

open Classical in
/-- Symbols are variables, and roots are taken of constants only. -/
noncomputable def interpretation : Interpretation RealFunction where
  symbol := var
  constant _ := 0
  apply
    | .sqrt => fun x => algebraMap ℝ RealFunction √(constantValue x)
    | _ => fun _ => 0
  pow x y :=
    if integer : ∃ n : ℤ, y = n then x ^ integer.choose
    else algebraMap ℝ RealFunction (constantValue x ^ constantValue y)

variable {R : Set (ℕ × ℕ)} {S : Set String} {c q : ℚ} {max : ℕ}

theorem pow_int (x : RealFunction) (n : ℤ) : interpretation.pow x n = x ^ n := by
  have integer : ∃ m : ℤ, (n : RealFunction) = m := ⟨n, rfl⟩
  have same : n = integer.choose := Int.cast_injective integer.choose_spec
  refine (dif_pos integer).trans ?_
  rw [← same]

theorem pow_rat (proper : q.den ≠ 1) :
    interpretation.pow c q = algebraMap ℝ RealFunction ((c : ℝ) ^ (q : ℝ)) := by
  have fractional : ¬ ∃ n : ℤ, (q : RealFunction) = n := by
    rintro ⟨n, same⟩
    have equal : q = n := Rat.cast_injective (α := RealFunction) (by rw [same, Rat.cast_intCast])
    rw [equal, Rat.den_intCast] at proper
    exact proper rfl
  refine (dif_neg fractional).trans ?_
  rw [← map_ratCast (algebraMap ℝ RealFunction) c,
    ← map_ratCast (algebraMap ℝ RealFunction) q, constantValue_algebraMap, constantValue_algebraMap]

theorem sqrt_rat (c : ℚ) :
    interpretation.apply .sqrt c = algebraMap ℝ RealFunction √(c : ℝ) := by
  rw [← map_ratCast (algebraMap ℝ RealFunction) c]
  change algebraMap ℝ RealFunction √(constantValue _) = _
  rw [constantValue_algebraMap]

/-- Normalising gives exactly the value of the expression. -/
abbrev Normalises (R : Set (ℕ × ℕ)) (S : Set String) (max : ℕ) (e : Expr) : Prop :=
  (valuation R S).Normalises Poly.Settled max e (e.value interpretation)

theorem normalises_values {xs : List Expr} (each : ∀ x ∈ xs, Normalises R S max x) :
    List.Forall₂ ((valuation R S).Normalises Poly.Settled max) xs
      (Expr.values interpretation xs) := by
  rw [Expr.values_eq_map, List.forall₂_map_right_iff, List.forall₂_same]
  exact each

variable (system : Radical.Independent R)

include system

theorem normalises (bounded : max ≤ 4294967295) {e : Expr} (inside : e.IsRadical R S) :
    Normalises R S max e := by
  induction inside with
  | number q =>
    unfold Normalises
    rw [Expr.value_number, ← eq_ratCast (algebraMap ℚ RealFunction)]
    exact .number Poly.settledClass q
  | @symbol s inside =>
    unfold Normalises Valuation.Normalises
    rw [Fraction.ofExpr, Expr.value_symbol]
    have exact := Valuation.Exact.of_poly (v := valuation R S) Poly.settledClass
      (.ofAtom (.inl ⟨s, inside, rfl⟩))
      (Poly.settled_ofAtom (.symbol s))
    rwa [Valuation.poly_ofAtom] at exact
  | sum _ ih =>
    unfold Normalises
    rw [Expr.value_sum]
    exact (faithful system).normalises_sum (normalises_values ih)
  | product _ ih =>
    unfold Normalises
    rw [Expr.value_product]
    exact (faithful system).normalises_product (normalises_values ih)
  | power n _ ih =>
    unfold Normalises
    rw [Expr.value_power, Expr.int, Expr.value_number, Rat.cast_intCast, pow_int]
    exact (faithful system).normalises_power ih n
  | @sqrt c positive within =>
    have root := root_exact (S := S) positive le_rfl (by decide) within
    unfold Normalises Valuation.Normalises
    rw [Fraction.ofExpr, Fraction.ofExpr, Expr.value_apply, Expr.value_number, sqrt_rat,
      Real.sqrt_eq_rpow]
    exact root
  | @root c q positive proper within =>
    unfold Normalises Valuation.Normalises
    rw [Fraction.ofExpr, Fraction.ofExpr, Fraction.ofExpr, Expr.value_power, Expr.value_number,
      Expr.value_number, pow_rat proper]
    change Yields ((Fraction.constant c).pow (.constant q) max) _
    unfold Fraction.pow
    rw [Fraction.constant?_constant]
    exact powRat_exact system positive proper within bounded

end RealFunction

end Discharge
