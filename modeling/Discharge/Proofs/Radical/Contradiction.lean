import Mathlib
import Discharge.Proofs.Radical.Tree
import Discharge.Proofs.Trail

/-! Contradictions from equations of positive expressions. If the roots in an
equation are those of an independent system of radicals and the difference of its
sides simplifies to a constant other than zero, then the sides differ wherever
the symbols are positive, and between numbers the converse holds as well. Roots
of dependent radicals are not recognised as equal, and a true equation between
them counts as contradictory. -/

namespace Discharge

/-! ## Positive expressions -/

/-- Expressions of positive numbers and symbols, put together by sums, products,
square roots and rational powers. -/
inductive Expr.IsPositive : Expr → Prop
  | number {q : Rat} : 0 < q → IsPositive (.number q)
  | symbol (s : String) : IsPositive (.symbol s)
  | sum {xs : List Expr} : xs ≠ [] → (∀ x ∈ xs, IsPositive x) → IsPositive (.sum xs)
  | product {xs : List Expr} : (∀ x ∈ xs, IsPositive x) → IsPositive (.product xs)
  | power {b : Expr} (q : Rat) : IsPositive b → IsPositive (.power b (.number q))
  | sqrt {x : Expr} : IsPositive x → IsPositive (.apply .sqrt x)

/-- The real numbers, with the positive roots of positive numbers. -/
noncomputable def Interpretation.real (symbol : String → ℝ) : Interpretation ℝ where
  symbol := symbol
  constant
    | .pi => Real.pi
    | .euler => Real.exp 1
    | .imaginary => 0
  apply
    | .exp => Real.exp
    | .ln => Real.log
    | .sqrt => Real.sqrt
    | .sin => Real.sin
    | .cos => Real.cos
    | .tan => Real.tan
    | .sinh => Real.sinh
    | .cosh => Real.cosh
  pow x y := x ^ y

variable {point : String → ℝ}

theorem Expr.IsPositive.value_pos {e : Expr} (sign : e.IsPositive) (positive : ∀ s, 0 < point s) :
    0 < e.value (.real point) := by
  induction sign with
  | number above =>
    rw [value_number]
    exact_mod_cast above
  | symbol s =>
    rw [value_symbol]
    exact positive s
  | sum nonempty _ ih =>
    rw [value_sum, values_eq_map]
    refine List.sum_pos _ (fun y member => ?_) (by simpa using nonempty)
    obtain ⟨x, inside, rfl⟩ := List.mem_map.mp member
    exact ih x inside
  | product _ ih =>
    rw [value_product, values_eq_map]
    refine List.prod_pos fun y member => ?_
    obtain ⟨x, inside, rfl⟩ := List.mem_map.mp member
    exact ih x inside
  | power q _ ih =>
    rw [value_power]
    exact Real.rpow_pos_of_pos ih _
  | sqrt _ ih =>
    rw [value_apply]
    exact Real.sqrt_pos_of_pos ih

/-! ## Values at a point -/

namespace RealFunction

/-- The function is a quotient of polynomials, and `y` is the quotient of their
values at the point. -/
def HasValue (point : String → ℝ) (x : RealFunction) (y : ℝ) : Prop :=
  ∃ num den : MvPolynomial String ℝ, x * algebraMap _ RealFunction den = algebraMap _ _ num ∧
    den.eval point ≠ 0 ∧ y * den.eval point = num.eval point

namespace HasValue

variable {x x' : RealFunction} {y y' : ℝ}

theorem polynomial (point : String → ℝ) (p : MvPolynomial String ℝ) :
    HasValue point (algebraMap _ RealFunction p) (p.eval point) :=
  ⟨p, 1, by simp, by simp, by simp⟩

theorem constant (point : String → ℝ) (y : ℝ) :
    HasValue point (algebraMap ℝ RealFunction y) y := by
  have value := polynomial point (.C y)
  rwa [MvPolynomial.eval_C, ← MvPolynomial.algebraMap_eq, ← IsScalarTower.algebraMap_apply] at value

theorem add (left : HasValue point x y) (right : HasValue point x' y') :
    HasValue point (x + x') (y + y') := by
  obtain ⟨num, den, quotient, regular, value⟩ := left
  obtain ⟨num', den', quotient', regular', value'⟩ := right
  refine ⟨num * den' + num' * den, den * den', ?_, ?_, ?_⟩
  · simp only [map_add, map_mul, ← quotient, ← quotient']
    ring
  · rw [map_mul]
    exact mul_ne_zero regular regular'
  · simp only [map_add, map_mul, ← value, ← value']
    ring

theorem mul (left : HasValue point x y) (right : HasValue point x' y') :
    HasValue point (x * x') (y * y') := by
  obtain ⟨num, den, quotient, regular, value⟩ := left
  obtain ⟨num', den', quotient', regular', value'⟩ := right
  refine ⟨num * num', den * den', ?_, ?_, ?_⟩
  · simp only [map_mul, ← quotient, ← quotient']
    ring
  · rw [map_mul]
    exact mul_ne_zero regular regular'
  · simp only [map_mul, ← value, ← value']
    ring

theorem inv (value : HasValue point x y) (nonzero : y ≠ 0) : HasValue point x⁻¹ y⁻¹ := by
  obtain ⟨num, den, quotient, regular, value⟩ := value
  have above : num.eval point ≠ 0 := by
    rw [← value]
    exact mul_ne_zero nonzero regular
  have proper : x ≠ 0 := by
    rintro rfl
    rw [zero_mul, eq_comm, FaithfulSMul.algebraMap_eq_zero_iff] at quotient
    rw [quotient, map_zero] at above
    exact above rfl
  refine ⟨den, num, ?_, above, ?_⟩
  · rw [← quotient, inv_mul_cancel_left₀ proper]
  · rw [← value, inv_mul_cancel_left₀ nonzero]

theorem zpow (value : HasValue point x y) (nonzero : y ≠ 0) (n : ℤ) :
    HasValue point (x ^ n) (y ^ n) := by
  have power : ∀ (k : ℕ) {x : RealFunction} {y : ℝ}, HasValue point x y →
      HasValue point (x ^ k) (y ^ k) := by
    intro k x y value
    induction k with
    | zero => simpa using constant point 1
    | succ k ih =>
      rw [pow_succ, pow_succ]
      exact ih.mul value
  cases n with
  | ofNat k => simpa using power k value
  | negSucc k =>
    rw [zpow_negSucc, zpow_negSucc, ← inv_pow, ← inv_pow]
    exact power _ (value.inv nonzero)

/-- A constant function has its value everywhere. -/
theorem eq_of_constant {c : ℝ} (value : HasValue point (algebraMap ℝ RealFunction c) y) :
    y = c := by
  obtain ⟨num, den, quotient, regular, value⟩ := value
  have equal : MvPolynomial.C c * den = num := by
    apply IsFractionRing.injective (MvPolynomial String ℝ) RealFunction
    rw [← quotient, map_mul, ← MvPolynomial.algebraMap_eq, ← IsScalarTower.algebraMap_apply]
  rw [← equal, map_mul, MvPolynomial.eval_C] at value
  exact mul_right_cancel₀ regular value

end HasValue

variable {R : Set (ℕ × ℕ)} {S : Set String} {e lhs rhs : Expr} {xs : List Expr}

/-- The value of the function that an expression stands for is that of the
expression. -/
abbrev Evaluates (point : String → ℝ) (e : Expr) : Prop :=
  HasValue point (e.value interpretation) (e.value (.real point))

theorem evaluates_sum (each : ∀ x ∈ xs, Evaluates point x) : Evaluates point (.sum xs) := by
  unfold Evaluates
  rw [Expr.value_sum, Expr.value_sum]
  induction xs with
  | nil => simpa using HasValue.constant point 0
  | cons x xs ih =>
    obtain ⟨head, tail⟩ := List.forall_mem_cons.mp each
    rw [Expr.values_cons, Expr.values_cons, List.sum_cons, List.sum_cons]
    exact head.add (ih tail)

theorem evaluates_product (each : ∀ x ∈ xs, Evaluates point x) :
    Evaluates point (.product xs) := by
  unfold Evaluates
  rw [Expr.value_product, Expr.value_product]
  induction xs with
  | nil => simpa using HasValue.constant point 1
  | cons x xs ih =>
    obtain ⟨head, tail⟩ := List.forall_mem_cons.mp each
    rw [Expr.values_cons, Expr.values_cons, List.prod_cons, List.prod_cons]
    exact head.mul (ih tail)

/-- Positive expressions can be evaluated where the symbols are positive. -/
theorem evaluates (inside : e.IsRadical R S) (sign : e.IsPositive) (positive : ∀ s, 0 < point s) :
    Evaluates point e := by
  induction inside with
  | number q =>
    unfold Evaluates
    rw [Expr.value_number, Expr.value_number, ← map_ratCast (algebraMap ℝ RealFunction)]
    exact .constant point _
  | @symbol s _ =>
    have value := HasValue.polynomial point (.X s)
    rw [MvPolynomial.eval_X] at value
    unfold Evaluates
    rwa [Expr.value_symbol, Expr.value_symbol]
  | sum _ ih =>
    cases sign with
    | sum _ each => exact evaluates_sum fun x member => ih x member (each x member)
  | product _ ih =>
    cases sign with
    | product each => exact evaluates_product fun x member => ih x member (each x member)
  | @power b n _ ih =>
    cases sign with
    | power _ sign =>
      have power : (Interpretation.real point).pow (b.value (.real point)) n =
          b.value (.real point) ^ n := Real.rpow_intCast _ n
      unfold Evaluates
      rw [Expr.value_power, Expr.value_power, Expr.int, Expr.value_number, Expr.value_number,
        Rat.cast_intCast, Rat.cast_intCast, pow_int, power]
      exact (ih sign).zpow (sign.value_pos positive).ne' n
  | @sqrt c =>
    unfold Evaluates
    rw [Expr.value_apply, Expr.value_apply, Expr.value_number, Expr.value_number, sqrt_rat]
    exact .constant point _
  | @root c q _ proper =>
    unfold Evaluates
    rw [Expr.value_power, Expr.value_power, Expr.value_number, Expr.value_number,
      Expr.value_number, Expr.value_number, pow_rat proper]
    exact .constant point _

/-! ## Contradictions -/

variable {guards : Guards}

/-- The test normalises the difference of the sides, and its tree once more. -/
theorem residual_exact (system : Radical.Independent R)
    (stable : ∀ b ∈ R, Radical.Within R (b.1 : ℕ) b.2) (bounded : guards.maxPower ≤ 4294967295)
    (left : lhs.IsRadical R S) (right : rhs.IsRadical R S) {answer : Bool}
    (ran : Strategy.residualContradiction (Oracle.exact guards) (.equation lhs rhs) = .ok answer) :
    ∃ r, (valuation R S).Exact Poly.Settled r (lhs.value interpretation - rhs.value interpretation) ∧
      answer = (!r.hasSymbols && !r.isZero) := by
  obtain ⟨difference, simplified, ran⟩ := bind_eq_ok ran
  obtain ⟨isConstant, constant, ran⟩ := bind_eq_ok ran
  obtain ⟨r, normalised, rfl⟩ :=
    map_eq_ok (Trail.answer_eq_ok simplified)
  have exact := (normalises system bounded ((Expr.IsRadical.closed R S).sub left right)).of_ok
    normalised
  obtain ⟨inside, value⟩ := fraction_tree system stable exact.denotes
  obtain ⟨s, again, rfl⟩ := map_eq_ok (Trail.answer_eq_ok constant)
  have exact' := (normalises system bounded inside).of_ok again
  rw [value, Expr.value_sub] at exact'
  refine ⟨s, exact', ?_⟩
  split at ran
  · rename_i free
    obtain ⟨isZero, tested, ran⟩ := bind_eq_ok ran
    obtain ⟨t, same, rfl⟩ := map_eq_ok (Trail.answer_eq_ok tested)
    cases again.symm.trans same
    cases ran
    rw [free, Bool.true_and]
  · rename_i symbols
    cases ran
    rw [Bool.not_eq_true] at symbols
    rw [symbols, Bool.false_and]

/-- A difference of positive expressions that is a constant is that everywhere. -/
theorem difference_eq {c : ℝ} (left : lhs.IsPositive ∧ lhs.IsRadical R S)
    (right : rhs.IsPositive ∧ rhs.IsRadical R S)
    (constant : lhs.value interpretation - rhs.value interpretation = algebraMap ℝ RealFunction c)
    (positive : ∀ s, 0 < point s) : lhs.value (.real point) - rhs.value (.real point) = c := by
  have opposite := (HasValue.constant point (-1)).mul (evaluates right.2 right.1 positive)
  have value := (evaluates left.2 left.1 positive).add opposite
  rw [map_neg, map_one, neg_one_mul, neg_one_mul, ← sub_eq_add_neg, ← sub_eq_add_neg,
    constant] at value
  exact value.eq_of_constant

/-- The sides of a contradictory equation differ. -/
theorem sides_ne (system : Radical.Independent R) (bounded : guards.maxPower ≤ 4294967295)
    (left : lhs.IsPositive ∧ lhs.IsRadical R S) (right : rhs.IsPositive ∧ rhs.IsRadical R S)
    (contradictory : Strategy.residualContradiction (Oracle.exact guards) (.equation lhs rhs) =
      .ok true)
    (positive : ∀ s, 0 < point s) : lhs.value (.real point) ≠ rhs.value (.real point) := by
  have part := system.mono fun _ (member : _ ∈ Radical.whole R) => member.1
  obtain ⟨r, exact, tests⟩ := residual_exact part (fun _ => Radical.within_whole) bounded
    left.2.whole right.2.whole contradictory
  obtain ⟨free, nonzero⟩ : r.hasSymbols = false ∧ r.isZero = false := by simpa using tests.symm
  obtain ⟨c, constant⟩ := fraction_constant exact.denotes free
  have difference := difference_eq left right constant positive
  intro same
  rw [same, sub_self] at difference
  rw [← difference, map_zero] at constant
  rw [((faithful part).isZero_iff exact).mpr constant] at nonzero
  cases nonzero

/-- Without symbols, sides that are not told apart are equal. -/
theorem sides_eq (system : Radical.Independent R) (bounded : guards.maxPower ≤ 4294967295)
    (left : lhs.IsPositive ∧ lhs.IsRadical R ∅) (right : rhs.IsPositive ∧ rhs.IsRadical R ∅)
    (consistent : Strategy.residualContradiction (Oracle.exact guards) (.equation lhs rhs) =
      .ok false)
    (positive : ∀ s, 0 < point s) : lhs.value (.real point) = rhs.value (.real point) := by
  have part := system.mono fun _ (member : _ ∈ Radical.whole R) => member.1
  obtain ⟨r, exact, tests⟩ := residual_exact part (fun _ => Radical.within_whole) bounded
    left.2.whole right.2.whole consistent
  have free := fraction_free exact.denotes
  have zero : r.isZero = true := by simpa [free] using tests.symm
  have constant := ((faithful part).isZero_iff exact).mp zero
  rw [← map_zero (algebraMap ℝ RealFunction)] at constant
  exact sub_eq_zero.mp (difference_eq left right constant positive)

end RealFunction

/-- A proof by contradiction is one from a contradictory assumption. -/
theorem Strategy.contradiction_concludes (oracle : Oracle) (ob : Obligation) (assumption : Claim)
    (contradicts : Oracle → Claim → Except Stop Bool) :
    ((contradiction assumption contradicts).attempt oracle ob).Concludes
      (fun verdict => verdict = .proven → contradicts oracle assumption = .ok true) := by
  refine .bind (.step _) fun _ _ => .bind (.probe _) fun found ran => ?_
  split
  · rename_i holds
    exact .bind (.step _) fun _ _ => .bind (.step _) fun _ _ => .pure fun _ => holds ▸ ran
  · exact .bind (.step _) fun _ _ => .pure nofun

/-- Let the roots in an equation of positive expressions be those of an independent
system of radicals.  If the equation counts as contradictory, then its sides
differ wherever the symbols are positive; so a proof by contradiction does not
start from an equation that holds there.  An equation without symbols counts as
contradictory exactly if its sides differ. -/
theorem contradiction_sound {R : Set (ℕ × ℕ)} {S : Set String} (system : Radical.Independent R)
    (guards : Guards) (bounded : guards.maxPower ≤ 4294967295) {lhs rhs : Expr}
    (left : lhs.IsPositive ∧ lhs.IsRadical R S) (right : rhs.IsPositive ∧ rhs.IsRadical R S) :
    (Strategy.residualContradiction (Oracle.exact guards) (.equation lhs rhs) = .ok true →
      ∀ point : String → ℝ, (∀ s, 0 < point s) →
        lhs.value (.real point) ≠ rhs.value (.real point)) ∧
    (∀ ob : Obligation, ((Strategy.contradiction (.equation lhs rhs)
        Strategy.residualContradiction).run (Oracle.exact guards) ob).obligation.status = .proven →
      ∀ point : String → ℝ, (∀ s, 0 < point s) →
        lhs.value (.real point) ≠ rhs.value (.real point)) ∧
    (lhs.symbols = [] → rhs.symbols = [] → ∀ answer,
      Strategy.residualContradiction (Oracle.exact guards) (.equation lhs rhs) = .ok answer →
      ∀ point : String → ℝ, (∀ s, 0 < point s) →
        (answer = true ↔ lhs.value (.real point) ≠ rhs.value (.real point))) := by
  refine ⟨fun contradictory point positive => ?_, fun ob proven point positive => ?_,
    fun left' right' answer ran point positive => ?_⟩
  · exact RealFunction.sides_ne system bounded left right contradictory positive
  · have concludes := Strategy.contradiction_concludes (Oracle.exact guards) ob (.equation lhs rhs)
      Strategy.residualContradiction
    have contradictory := Strategy.verdict_of_status concludes .proven nofun proven rfl
    exact RealFunction.sides_ne system bounded left right contradictory positive
  · cases answer with
    | true =>
      have differ := RealFunction.sides_ne system bounded left right ran positive
      exact iff_of_true rfl differ
    | false =>
      have number : ∀ {e : Expr}, e.IsPositive ∧ e.IsRadical R S → e.symbols = [] →
          e.IsPositive ∧ e.IsRadical R ∅ := fun inside none =>
        ⟨inside.1, inside.2.of_symbols fun s occurs =>
          absurd (Expr.mem_symbols_of_subterm occurs) (none ▸ List.not_mem_nil)⟩
      have equal := RealFunction.sides_eq system bounded (number left left') (number right right')
        ran positive
      exact iff_of_false nofun (not_not.mpr equal)

/-! ## Roots of primes -/

/-- The square roots of primes. -/
def squareRoots : Set (ℕ × ℕ) := { b | b.1.Prime ∧ b.2 = 2 }

theorem squareRoots_independent : Radical.Independent squareRoots :=
  Radical.independent_of_primes (fun _ member => member.1) (fun _ member => member.2.ge)
    fun _ left _ right same => Prod.ext same (left.2.trans right.2.symm)

/-- The square root of a rational that trial division factors is made of square
roots of primes. -/
theorem within_squareRoots {c : ℚ} (positive : 0 < c)
    (small : c.num.natAbs * c.den ≤ Radical.divisionLimit ^ 2) :
    Radical.Within squareRoots c 2 := by
  have bounded : c.num.natAbs * Nat.pow c.den (2 - 1) ≤ Radical.divisionLimit ^ 2 := by
    rwa [Nat.pow_eq, Nat.pow_one]
  exact fun n member =>
    ⟨Radical.radicand_prime (Radical.radicand_pos positive 2) bounded n member, rfl⟩

/-- `sqrt(6)`. -/
def rootOfSix : Expr := .apply .sqrt (.number 6)

/-- `sqrt(2) + sqrt(3)`. -/
def sumOfRoots : Expr := .sum [.apply .sqrt (.number 2), .apply .sqrt (.number 3)]

theorem rootOfSix_class : rootOfSix.IsPositive ∧ rootOfSix.IsRadical squareRoots ∅ := by
  have positive : (0 : ℚ) < 6 := by norm_num
  exact ⟨.sqrt (.number positive), .sqrt positive (within_squareRoots positive (by decide))⟩

theorem sumOfRoots_class : sumOfRoots.IsPositive ∧ sumOfRoots.IsRadical squareRoots ∅ := by
  have two := within_squareRoots (c := 2) two_pos (by decide)
  have three := within_squareRoots (c := 3) three_pos (by decide)
  refine ⟨.sum (by simp) (List.forall_mem_cons.mpr ⟨.sqrt (.number two_pos), ?_⟩),
    .sum (List.forall_mem_cons.mpr ⟨.sqrt two_pos two, ?_⟩)⟩
  · exact List.forall_mem_singleton.mpr (.sqrt (.number three_pos))
  · exact List.forall_mem_singleton.mpr (.sqrt three_pos three)

/-- The square root of two and the cube root of three. -/
def mixedRoots : Set (ℕ × ℕ) := {(2, 2), (3, 3)}

theorem mixedRoots_independent : Radical.Independent mixedRoots := by
  refine Radical.independent_of_primes ?_ ?_ ?_
  · rintro a (rfl | rfl) <;> norm_num
  · rintro a (rfl | rfl) <;> norm_num
  · rintro a (rfl | rfl) b (rfl | rfl) same <;> simp_all

/-- `x + sqrt(2)`. -/
def squareRootSum : Expr := .sum [.symbol "x", .apply .sqrt (.number 2)]

/-- `x + 3^(1/3)`. -/
def cubeRootSum : Expr := .sum [.symbol "x", .power (.number 3) (.number (1 / 3))]

theorem squareRootSum_class : squareRootSum.IsPositive ∧ squareRootSum.IsRadical mixedRoots {"x"} := by
  have within : Radical.Within mixedRoots 2 2 :=
    Radical.within_prime Nat.prime_two le_rfl (.inl rfl)
  refine ⟨.sum (by simp) (List.forall_mem_cons.mpr ⟨.symbol "x", ?_⟩),
    .sum (List.forall_mem_cons.mpr ⟨.symbol rfl, ?_⟩)⟩
  · exact List.forall_mem_singleton.mpr (.sqrt (.number two_pos))
  · exact List.forall_mem_singleton.mpr (.sqrt two_pos within)

theorem cubeRootSum_class : cubeRootSum.IsPositive ∧ cubeRootSum.IsRadical mixedRoots {"x"} := by
  have third : (1 / 3 : ℚ).den = 3 := by norm_num
  have within : Radical.Within mixedRoots 3 (1 / 3 : ℚ).den := by
    rw [third]
    exact Radical.within_prime Nat.prime_three (by decide) (.inr rfl)
  refine ⟨.sum (by simp) (List.forall_mem_cons.mpr ⟨.symbol "x", ?_⟩),
    .sum (List.forall_mem_cons.mpr ⟨.symbol rfl, ?_⟩)⟩
  · exact List.forall_mem_singleton.mpr (.power _ (.number three_pos))
  · exact List.forall_mem_singleton.mpr (.root three_pos (by omega) within)

theorem contradiction_sound_roots :
    (∀ point : String → ℝ, (∀ s, 0 < point s) →
      rootOfSix.value (.real point) ≠ sumOfRoots.value (.real point)) ∧
    ∀ point : String → ℝ, (∀ s, 0 < point s) →
      squareRootSum.value (.real point) ≠ cubeRootSum.value (.real point) := by
  have square : Strategy.residualContradiction (Oracle.exact {})
      (.equation rootOfSix sumOfRoots) = .ok true := by decide +kernel
  have mixed : Strategy.residualContradiction (Oracle.exact {})
      (.equation squareRootSum cubeRootSum) = .ok true := by decide +kernel
  refine ⟨fun point positive => ?_, ?_⟩
  · have exact := (contradiction_sound squareRoots_independent {} (by decide) rootOfSix_class
      sumOfRoots_class).2.2 (by decide) (by decide) true square
    exact (exact point positive).mp rfl
  · exact (contradiction_sound mixedRoots_independent {} (by decide) squareRootSum_class
      cubeRootSum_class).1 mixed

/-- Two ways to write one root: the equation holds, and counts as contradictory. -/
theorem fourthRoot_contradiction :
    let lhs := Expr.apply .sqrt (.number 2)
    let rhs := Expr.power (.number 4) (.number (1 / 4))
    lhs.IsPositive ∧ rhs.IsPositive ∧
      Strategy.residualContradiction (Oracle.exact {}) (.equation lhs rhs) = .ok true ∧
      ∀ point : String → ℝ, lhs.value (.real point) = rhs.value (.real point) := by
  refine ⟨.sqrt (.number two_pos), .power _ (.number four_pos), by decide +kernel, fun point => ?_⟩
  rw [Expr.value_apply, Expr.value_power, Expr.value_number, Expr.value_number, Expr.value_number]
  change √((2 : ℚ) : ℝ) = ((4 : ℚ) : ℝ) ^ ((1 / 4 : ℚ) : ℝ)
  have square : ((4 : ℚ) : ℝ) = (2 : ℝ) ^ (2 : ℝ) := by norm_num
  rw [square, ← Real.rpow_mul two_pos.le, Real.sqrt_eq_rpow]
  norm_num

end Discharge
