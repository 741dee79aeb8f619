import Discharge.Expr.Derivative
import Discharge.Proofs.Differential.Field
import Discharge.Proofs.Interpretation
import Discharge.Proofs.Subterm

/-! The derivative of an expression in a differential field. Where the functions
follow the chain rule and the powers follow theirs, the tree that differentiation
puts together has the derivative of the value of the expression as its value. -/

namespace Discharge

variable {K : Type*} [Field K] [Algebra ℚ K]

/-! ## Rules -/

namespace Interpretation

/-- The derivative of a function at a value, before the chain rule. -/
def outerDerivative (I : Interpretation K) : Function → K → K
  | .exp, a => I.apply .exp a
  | .ln, a => 1 / a
  | .sqrt, a => 1 / (2 * I.apply .sqrt a)
  | .sin, a => I.apply .cos a
  | .cos, a => -I.apply .sin a
  | .tan, a => 1 / I.apply .cos a ^ 2
  | .sinh, a => I.apply .cosh a
  | .cosh, a => I.apply .sinh a

/-- What the derivative of a function at a value is divided by. -/
def outerDivisor (I : Interpretation K) : Function → K → K
  | .ln, a => a
  | .sqrt, a => 2 * I.apply .sqrt a
  | .tan, a => I.apply .cos a ^ 2
  | _, _ => 1

/-- The values are those of a differential field in which `x` is the variable, as
far as the expression goes: everything else that is named is constant, functions
follow the chain rule, and powers follow the rules for constant exponents, for
constant bases, and for neither. -/
structure Differential (I : Interpretation K) (d : Derivation ℚ K K) (x : String) (e : Expr) :
    Prop where
  variable_ : d (I.symbol x) = 1
  symbol : ∀ s, s ≠ x → d (I.symbol s) = 0
  constant : ∀ c, d (I.constant c) = 0
  chain : ∀ f a, Expr.Subterm (.apply f a) e → I.outerDivisor f (a.value I) ≠ 0 →
    d (I.apply f (a.value I)) = I.outerDerivative f (a.value I) * d (a.value I)
  integer : ∀ (a : K) (n : ℤ), I.pow a n = a ^ n
  constant_exponent : ∀ b c, Expr.Subterm (.power b c) e → d (c.value I) = 0 →
    d (I.pow (b.value I) (c.value I)) =
      c.value I * I.pow (b.value I) (c.value I - 1) * d (b.value I)
  constant_base : ∀ b c, Expr.Subterm (.power b c) e → d (b.value I) = 0 →
    d (I.pow (b.value I) (c.value I)) =
      I.pow (b.value I) (c.value I) * I.apply .ln (b.value I) * d (c.value I)
  neither : ∀ b c, Expr.Subterm (.power b c) e → b.mentions x = true → c.mentions x = true →
    b.value I ≠ 0 → d (I.pow (b.value I) (c.value I)) = I.pow (b.value I) (c.value I) *
      (d (c.value I) * I.apply .ln (b.value I) + c.value I * d (b.value I) / b.value I)

/-- Nothing is zero that the derivative of the expression is divided by. -/
structure Divisible (I : Interpretation K) (x : String) (e : Expr) : Prop where
  function : ∀ f a, Expr.Subterm (.apply f a) e → I.outerDivisor f (a.value I) ≠ 0
  base : ∀ b c, Expr.Subterm (.power b c) e → b.mentions x = true → c.mentions x = true →
    b.value I ≠ 0

end Interpretation

open Discharge.Expr (Subterm derivative derivatives productRule)

/-! ## Operators -/

namespace Expr

variable {K : Type*} [Field K] {I : Interpretation K}

theorem value_div_of_integer (integer : ∀ (a : K) (n : ℤ), I.pow a n = a ^ n) (a b : Expr) :
    (a / b).value I = a.value I / b.value I := by
  change (a * Expr.power b (.int (-1))).value I = _
  rw [value_mul, value_power, int, value_number, Rat.cast_intCast, integer, zpow_neg_one,
    div_eq_mul_inv]

theorem value_outerDerivative (integer : ∀ (a : K) (n : ℤ), I.pow a n = a ^ n) (f : Function)
    (a : Expr) : (outerDerivative f a).value I = I.outerDerivative f (a.value I) := by
  have square (a : K) : I.pow a 2 = a ^ 2 := by exact_mod_cast integer a 2
  cases f <;> simp [outerDerivative, Interpretation.outerDerivative, value_div_of_integer integer,
    square, one, int]

end Expr

variable {I : Interpretation K} {d : Derivation ℚ K K} {x : String} {e : Expr}

/-! ## Expressions without the variable -/

mutual
theorem derivation_of_unmentioned (differential : I.Differential d x e)
    (divisible : I.Divisible x e) : ∀ y, Subterm y e → y.mentions x = false → d (y.value I) = 0
  | .number q, _, _ => by rw [Expr.value_number, derivation_ratCast]
  | .constant c, _, _ => by rw [Expr.value_constant, differential.constant]
  | .symbol s, _, unmentioned => by
    rw [Expr.mentions, beq_eq_false_iff_ne] at unmentioned
    rw [Expr.value_symbol, differential.symbol s unmentioned]
  | .sum ys, inside, unmentioned => by
    rw [Expr.mentions] at unmentioned
    rw [Expr.value_sum]
    exact (derivation_of_allUnmentioned differential divisible ys
      (fun y member => .trans (.sum member (.refl y)) inside) unmentioned).1
  | .product ys, inside, unmentioned => by
    rw [Expr.mentions] at unmentioned
    rw [Expr.value_product]
    exact (derivation_of_allUnmentioned differential divisible ys
      (fun y member => .trans (.product member (.refl y)) inside) unmentioned).2
  | .power b c, inside, unmentioned => by
    rw [Expr.mentions, Bool.or_eq_false_iff] at unmentioned
    have base := derivation_of_unmentioned differential divisible b
      (.trans (.base (.refl b)) inside) unmentioned.1
    have exponent := derivation_of_unmentioned differential divisible c
      (.trans (.exponent (.refl c)) inside) unmentioned.2
    rw [Expr.value_power, differential.constant_exponent b c inside exponent, base, mul_zero]
  | .apply f a, inside, unmentioned => by
    rw [Expr.mentions] at unmentioned
    have argument := derivation_of_unmentioned differential divisible a
      (.trans (.argument (.refl a)) inside) unmentioned
    rw [Expr.value_apply, differential.chain f a inside (divisible.function f a inside), argument,
      mul_zero]

theorem derivation_of_allUnmentioned (differential : I.Differential d x e)
    (divisible : I.Divisible x e) : ∀ ys : List Expr, (∀ y ∈ ys, Subterm y e) →
      Expr.mentionsAny x ys = false →
        d (Expr.values I ys).sum = 0 ∧ d (Expr.values I ys).prod = 0
  | [], _, _ => by simp
  | y :: ys, inside, unmentioned => by
    rw [Expr.mentionsAny, Bool.or_eq_false_iff] at unmentioned
    obtain ⟨head, tail⟩ := List.forall_mem_cons.mp inside
    have first := derivation_of_unmentioned differential divisible y head unmentioned.1
    obtain ⟨sum, product⟩ := derivation_of_allUnmentioned differential divisible ys tail
      unmentioned.2
    simp [d.leibniz, first, sum, product]
end

/-! ## Derivatives -/

/-- The rules for powers put together the derivative of a power. -/
theorem value_powerDerivative {b c dBase dExponent : Expr} (differential : I.Differential d x e)
    (divisible : I.Divisible x e) (inside : Subterm (.power b c) e)
    (base : dBase.value I = d (b.value I)) (exponent : dExponent.value I = d (c.value I)) :
    (Expr.powerDerivative x b c dBase dExponent).value I =
      d ((Expr.power b c).value I) := by
  unfold Expr.powerDerivative
  rw [Expr.value_power]
  split
  · rename_i free
    have constant := derivation_of_unmentioned differential divisible c
      (.trans (.exponent (.refl c)) inside) (by simpa using free)
    rw [differential.constant_exponent b c inside constant]
    simp [base, Expr.one]
  · rename_i bound
    split
    · rename_i free
      have constant := derivation_of_unmentioned differential divisible b
        (.trans (.base (.refl b)) inside) (by simpa using free)
      rw [differential.constant_base b c inside constant]
      simp [exponent]
    · rename_i bound'
      have inBase : b.mentions x = true := by simpa using bound'
      have inExponent : c.mentions x = true := by simpa using bound
      rw [differential.neither b c inside inBase inExponent
        (divisible.base b c inside inBase inExponent)]
      simp [base, exponent, Expr.value_div_of_integer differential.integer]

mutual
theorem value_derivative (differential : I.Differential d x e) (divisible : I.Divisible x e) :
    ∀ y, Subterm y e → (derivative x y).value I = d (y.value I)
  | .number q, _ => by
    rw [derivative, Expr.value_number, derivation_ratCast, Expr.zero, Expr.value_number,
      Rat.cast_zero]
  | .constant c, _ => by
    rw [derivative, Expr.value_constant, differential.constant, Expr.zero, Expr.value_number,
      Rat.cast_zero]
  | .symbol s, _ => by
    rw [derivative, Expr.value_symbol]
    split
    · rename_i same
      rw [same, differential.variable_, Expr.one, Expr.value_number, Rat.cast_one]
    · rename_i other
      rw [differential.symbol s other, Expr.zero, Expr.value_number, Rat.cast_zero]
  | .sum ys, inside => by
    have within : ∀ y ∈ ys, Subterm y e := fun y member => .trans (.sum member (.refl y)) inside
    rw [derivative, Expr.value_sum]
    split
    · rw [Expr.value_sum]
      exact values_derivatives differential divisible ys within
    · rename_i unmentioned
      rw [(derivation_of_allUnmentioned differential divisible ys within
        (by simpa using unmentioned)).1, Expr.zero, Expr.value_number, Rat.cast_zero]
  | .product ys, inside => by
    have within : ∀ y ∈ ys, Subterm y e :=
      fun y member => .trans (.product member (.refl y)) inside
    rw [derivative, Expr.value_product]
    split
    · rw [Expr.value_sum, values_productRule differential divisible [] ys within]
      simp
    · rename_i unmentioned
      rw [(derivation_of_allUnmentioned differential divisible ys within
        (by simpa using unmentioned)).2, Expr.zero, Expr.value_number, Rat.cast_zero]
  | .power b c, inside => by
    have base := value_derivative differential divisible b (.trans (.base (.refl b)) inside)
    have exponent := value_derivative differential divisible c
      (.trans (.exponent (.refl c)) inside)
    rw [derivative]
    split
    · exact value_powerDerivative differential divisible inside base exponent
    · rename_i unmentioned
      rw [derivation_of_unmentioned differential divisible _ inside
        (by simpa [Expr.mentions] using unmentioned), Expr.zero, Expr.value_number, Rat.cast_zero]
  | .apply f a, inside => by
    have argument := value_derivative differential divisible a
      (.trans (.argument (.refl a)) inside)
    rw [derivative]
    split
    · rw [Expr.value_mul, Expr.value_outerDerivative differential.integer, argument,
        Expr.value_apply, differential.chain f a inside (divisible.function f a inside)]
    · rename_i unmentioned
      rw [derivation_of_unmentioned differential divisible _ inside
        (by simpa [Expr.mentions] using unmentioned), Expr.zero, Expr.value_number, Rat.cast_zero]

theorem values_derivatives (differential : I.Differential d x e)
    (divisible : I.Divisible x e) : ∀ ys : List Expr, (∀ y ∈ ys, Subterm y e) →
      (Expr.values I (derivatives x ys)).sum = d (Expr.values I ys).sum
  | [], _ => by simp [derivatives]
  | y :: ys, inside => by
    obtain ⟨head, tail⟩ := List.forall_mem_cons.mp inside
    rw [derivatives, Expr.values_cons, Expr.values_cons, List.sum_cons, List.sum_cons, d.map_add,
      value_derivative differential divisible y head,
      values_derivatives differential divisible ys tail]

/-- The terms of the product rule, behind the factors that are left as they are. -/
theorem values_productRule (differential : I.Differential d x e)
    (divisible : I.Divisible x e) : ∀ before ys : List Expr, (∀ y ∈ ys, Subterm y e) →
      (Expr.values I (productRule x before ys)).sum =
        (Expr.values I before).prod * d (Expr.values I ys).prod
  | before, [], _ => by simp [productRule]
  | before, y :: ys, inside => by
    obtain ⟨head, tail⟩ := List.forall_mem_cons.mp inside
    have rest := values_productRule differential divisible (before ++ [y]) ys tail
    rw [Expr.values_append, List.prod_append, Expr.values_cons, Expr.values_nil,
      List.prod_singleton] at rest
    rw [productRule, Expr.values_cons, List.prod_cons, d.leibniz, smul_eq_mul, smul_eq_mul]
    split
    · rw [Expr.values_cons, List.sum_cons, rest, Expr.value_product, Expr.values_append,
        Expr.values_cons, List.prod_append, List.prod_cons,
        value_derivative differential divisible y head]
      ring
    · rename_i unmentioned
      rw [rest, derivation_of_unmentioned differential divisible y head
        (by simpa using unmentioned)]
      ring
end

/-- The derivative of an expression has the derivative of its value as its value,
in every differential field in which nothing is divided by zero. -/
theorem derivative_exact {K : Type*} [Field K] [Algebra ℚ K] {d : Derivation ℚ K K}
    {I : Interpretation K} {x : String} {e : Expr} (differential : I.Differential d x e)
    (divisible : I.Divisible x e) : (e.derivative x).value I = d (e.value I) :=
  value_derivative differential divisible e (.refl e)

/-! ## Laurent series -/

open Classical in
/-- Laurent series in the variable `x`, with exponentials and integer powers. -/
noncomputable def Interpretation.laurent : Interpretation (LaurentSeries ℚ) where
  symbol s := if s = "x" then laurentX else 0
  constant _ := 0
  apply
    | .exp => laurentExp
    | _ => fun _ => 0
  pow a b := if whole : ∃ n : ℤ, b = n then a ^ whole.choose else 0

open Classical in
theorem Interpretation.laurent_pow (a : LaurentSeries ℚ) (n : ℤ) :
    Interpretation.laurent.pow a n = a ^ n := by
  have whole : ∃ m : ℤ, (n : LaurentSeries ℚ) = m := ⟨n, rfl⟩
  change (if whole : ∃ m : ℤ, (n : LaurentSeries ℚ) = m then a ^ whole.choose else 0) = _
  have : CharZero (LaurentSeries ℚ) := algebraRat.charZero _
  rw [dif_pos whole, ← Int.cast_injective whole.choose_spec]

/-- `x^3 * exp(x) / (1 + x)^2`. -/
def dampedCubic : Expr :=
  .product [.power (.symbol "x") (.int 3), .apply .exp (.symbol "x"),
    .power (.sum [.int 1, .symbol "x"]) (.int (-2))]

theorem dampedCubic_subterms {y : Expr} (inside : Subterm y dampedCubic) :
    (∀ f a, y = .apply f a → f = .exp ∧ a = .symbol "x") ∧
    ∀ b c, y = .power b c → c = .int 3 ∨ c = .int (-2) := by
  simp only [dampedCubic, Expr.int, Expr.subterm_iff (e := .product _),
    Expr.subterm_iff (e := .power _ _), Expr.subterm_iff (e := .apply _ _),
    Expr.subterm_iff (e := .sum _), Expr.subterm_iff (e := .symbol _),
    Expr.subterm_iff (e := .number _), Expr.operands, List.mem_cons, List.not_mem_nil, or_false,
    exists_eq_or_imp, exists_eq_left, false_and, exists_false] at inside
  rcases inside with
    rfl | (rfl | rfl | rfl) | (rfl | rfl) | rfl | (rfl | rfl | rfl) | rfl
  all_goals simp [Expr.int]

theorem dampedCubic_exponent {b c : Expr} (inside : Subterm (.power b c) dampedCubic) :
    ∃ n : ℤ, c = .int n := by
  rcases (dampedCubic_subterms inside).2 b c rfl with rfl | rfl
  · exact ⟨3, rfl⟩
  · exact ⟨-2, rfl⟩

theorem dampedCubic_differential : Interpretation.laurent.Differential laurentDerivation "x"
    dampedCubic where
  variable_ := laurentDerivation_X
  symbol s other := by
    have zero : Interpretation.laurent.symbol s = 0 := if_neg other
    rw [zero, map_zero]
  constant c := map_zero _
  chain f a inside _ := by
    obtain ⟨rfl, rfl⟩ := (dampedCubic_subterms inside).1 f a rfl
    change laurentDerivation (laurentExp laurentX) =
      laurentExp laurentX * laurentDerivation laurentX
    rw [laurentDerivation_exp, laurentDerivation_X, laurentX_linear, map_one]
  integer := Interpretation.laurent_pow
  constant_exponent b c inside _ := by
    obtain ⟨n, rfl⟩ := dampedCubic_exponent inside
    have lower : (Expr.int n).value Interpretation.laurent - 1 =
        ((n - 1 : ℤ) : LaurentSeries ℚ) := by
      rw [Expr.int, Expr.value_number]
      push_cast
      rfl
    rw [lower, Expr.int, Expr.value_number, Rat.cast_intCast, Interpretation.laurent_pow,
      Interpretation.laurent_pow, derivation_zpow]
  constant_base b c inside fixed := by
    obtain ⟨n, rfl⟩ := dampedCubic_exponent inside
    rw [Expr.int, Expr.value_number, derivation_ratCast, Rat.cast_intCast,
      Interpretation.laurent_pow, derivation_zpow, fixed, mul_zero, mul_zero]
  neither b c inside _ mentioned := by
    obtain ⟨n, rfl⟩ := dampedCubic_exponent inside
    cases mentioned

theorem derivative_exact_dampedCubic :
    (dampedCubic.derivative "x").value Interpretation.laurent =
      laurentDerivation (dampedCubic.value Interpretation.laurent) := by
  refine derivative_exact dampedCubic_differential ⟨fun f a inside => ?_, ?_⟩
  · obtain ⟨rfl, -⟩ := (dampedCubic_subterms inside).1 f a rfl
    exact one_ne_zero
  · intro b c inside _ mentioned
    obtain ⟨n, rfl⟩ := dampedCubic_exponent inside
    cases mentioned

end Discharge
