import Discharge.Proofs.Rational.Variable
import Discharge.Expr.Derivative

/-! Expressions whose canonical forms are polynomials in a variable. Sums,
products and powers of such expressions are computed without a denominator.
Among them are the tree of a polynomial, what the tree becomes at a value of the
variable, and its derivative: their values are the polynomial, its value and its
derivative. -/

namespace Discharge

open Failure (IsRefusal)

namespace Expr

variable {x : String} {value : Expr}

mutual
theorem substitute_of_unmentioned : ∀ {e : Expr}, e.mentions x = false →
    e.substitute x value = e
  | .number q, _ => by rw [substitute]
  | .constant c, _ => by rw [substitute]
  | .symbol s, unmentioned => by
    rw [mentions, beq_eq_false_iff_ne] at unmentioned
    rw [substitute, if_neg unmentioned]
  | .sum xs, unmentioned => by
    rw [mentions] at unmentioned
    rw [substitute, substituteAll_of_unmentioned unmentioned]
  | .product xs, unmentioned => by
    rw [mentions] at unmentioned
    rw [substitute, substituteAll_of_unmentioned unmentioned]
  | .power b e, unmentioned => by
    rw [mentions, Bool.or_eq_false_iff] at unmentioned
    rw [substitute, substitute_of_unmentioned unmentioned.1,
      substitute_of_unmentioned unmentioned.2]
  | .apply f y, unmentioned => by
    rw [mentions] at unmentioned
    rw [substitute, substitute_of_unmentioned unmentioned]

theorem substituteAll_of_unmentioned : ∀ {xs : List Expr}, mentionsAny x xs = false →
    substituteAll xs x value = xs
  | [], _ => by rw [substituteAll]
  | y :: ys, unmentioned => by
    rw [mentionsAny, Bool.or_eq_false_iff] at unmentioned
    rw [substituteAll, substitute_of_unmentioned unmentioned.1,
      substituteAll_of_unmentioned unmentioned.2]
end

theorem derivative_of_unmentioned {e : Expr} (unmentioned : e.mentions x = false) :
    e.derivative x = .zero := by
  cases e with
  | symbol s =>
    rw [mentions, beq_eq_false_iff_ne] at unmentioned
    rw [derivative, if_neg unmentioned]
  | _ =>
    rw [mentions] at unmentioned
    rw [derivative]
    try simp [unmentioned]

end Expr

namespace RationalFunction

open Polynomial

/-! ## Polynomials over one -/

/-- The fraction is a polynomial over one, without negative exponents of the
variable, and has the value `F`. -/
structure Whole (x : String) (r : Fraction) (F : RatFunc (Coefficients x)) : Prop where
  den : r.den = .one
  num : (along x).AdmitsPoly r.num
  value : (along x).poly r.num = F

variable {x : String} {r s : Fraction} {F G : RatFunc (Coefficients x)} {p q : Poly} {n : Int}
  {max : Nat}

theorem Whole.of_poly (admitted : (along x).AdmitsPoly p) :
    Whole x (.ofPoly p) ((along x).poly p) :=
  ⟨rfl, admitted, rfl⟩

theorem Whole.eq_ofPoly (whole : Whole x r F) : r = .ofPoly r.num := by
  obtain ⟨num, den⟩ := r
  exact congrArg (Fraction.mk num) whole.den

theorem Whole.reduced (whole : Whole x r F) : r.num.Reduced :=
  reduced_of_admits (admitsPoly_of_along whole.num)

theorem Whole.constant (q : Rat) :
    Whole x (.constant q) (algebraMap ℚ (RatFunc (Coefficients x)) q) := by
  rw [← (along x).poly_constant q]
  exact .of_poly (.constant q)

theorem Whole.one : Whole x .one 1 := by
  rw [← (along x).poly_one]
  exact .of_poly .one

theorem Whole.symbol (x s : String) : Whole x (.ofAtom (.symbol s))
    (algebraMap (Coefficients x)[X] (RatFunc (Coefficients x)) (symbolIn x s)) := by
  have value : (along x).poly (.ofAtom (.symbol s)) = _ := (along x).poly_ofAtom _
  exact ⟨rfl, .ofAtom ⟨s, rfl⟩, value⟩

theorem inVariable_injective (x : String) : Function.Injective (inVariable x) :=
  (inVariable x).injective

/-- The fraction represents the rational function that has its value. -/
theorem Whole.represents (whole : Whole x r F) :
    ∃ f, Represents r f ∧ inVariable x f = F := by
  refine ⟨valuation.poly r.num, ?_, ?_⟩
  · rw [whole.eq_ofPoly]
    exact .of_poly (admitsPoly_of_along whole.num)
  · rw [inVariable_poly, whole.value]

/-- Only a constant has the value of a constant. -/
theorem Whole.eq_constant {c : Rat}
    (whole : Whole x r (algebraMap ℚ (RatFunc (Coefficients x)) c)) : r = .constant c := by
  rw [whole.eq_ofPoly]
  refine congrArg Fraction.ofPoly ?_
  refine poly_injective (admitsPoly_of_along whole.num) (.constant c) (inVariable_injective x ?_)
  rw [inVariable_poly, inVariable_poly, whole.value, Valuation.poly_constant]

theorem add_whole (left : Whole x r F) (right : Whole x s G) :
    Ensures (r.add s) (Whole x · (F + G)) IsRefusal := by
  rw [left.eq_ofPoly, right.eq_ofPoly, Fraction.add_ofPoly left.reduced right.reduced, ← left.value,
    ← right.value, ← Valuation.poly_add]
  exact Whole.of_poly (left.num.add right.num)

theorem mul_whole (left : Whole x r F) (right : Whole x s G) :
    Ensures (r.mul s) (Whole x · (F * G)) IsRefusal := by
  rw [left.eq_ofPoly, right.eq_ofPoly, Fraction.mul_ofPoly, ← left.value, ← right.value]
  refine .bind (Valuation.mul_ensures (along_lawful x) left.num right.num).isRefusal ?_
  rintro p ⟨admitted, value⟩
  rw [Fraction.make_one (reduced_of_admits (admitsPoly_of_along admitted)), ← value]
  exact Whole.of_poly admitted

/-- A power with an exponent that is not negative. -/
theorem powInt_whole (whole : Whole x r F) (nonneg : 0 ≤ n) (max : Nat) :
    Ensures (r.powInt n max) (Whole x · (F ^ n)) IsRefusal := by
  have power := squaring_ensures (Whole x) (fun r s F G left right => mul_whole left right) n.natAbs
    .one whole
  obtain ⟨k, rfl⟩ := Int.eq_ofNat_of_zero_le nonneg
  unfold Fraction.powInt
  dsimp only
  split
  · exact .inl ⟨_, rfl⟩
  rw [if_neg (by omega)]
  rw [one_mul] at power
  rw [zpow_natCast]
  exact power

/-- A power of a symbol that may be divided by if the exponent is negative. -/
theorem powInt_symbol {s : String} (other : n < 0 → s ≠ x) (fits : fitsInt64 n = true)
    (max : Nat) : Ensures ((Fraction.ofAtom (.symbol s)).powInt n max) (Whole x ·
      (algebraMap (Coefficients x)[X] (RatFunc (Coefficients x)) (symbolIn x s) ^ n)) IsRefusal := by
  have irreducible : ∀ k, (Monomial.ofAtom (.symbol s) k).Irreducible := by
    intro k
    by_cases zero : k = 0
    · rw [zero]
      exact Monomial.irreducible_one
    · rw [Monomial.ofAtom, if_neg zero]
      exact ⟨by simpa using zero, by simp [Monomial.settleFactor], by simp [Monomial.excess?], rfl⟩
  rw [Fraction.powInt_ofAtom max fits (fun _ => rfl) fun k _ _ => irreducible k]
  split
  · exact .inl ⟨_, rfl⟩
  by_cases zero : n = 0
  · rw [zero, zpow_zero]
    exact Whole.one
  have admitted : (along x).Admits (.ofAtom (.symbol s) n) := by
    rw [Monomial.ofAtom, if_neg zero]
    refine ⟨List.pairwise_singleton _ _, fun f member => ?_, .zero, .inl rfl, .zero⟩
    rw [List.mem_singleton.mp member]
    exact ⟨zero, fits, ⟨s, rfl⟩, fun negative => ⟨s, other negative, rfl⟩⟩
  have value : (along x).monomial (.ofAtom (.symbol s) n) =
      algebraMap (Coefficients x)[X] (RatFunc (Coefficients x)) (symbolIn x s) ^ n := by
    rw [Monomial.ofAtom, if_neg zero, Valuation.monomial_eq, Valuation.factors_cons,
      Valuation.factors_nil, intPower_eq_zpow, mul_one]
    exact mul_one _
  refine ⟨rfl, .term admitted 1, ?_⟩
  change (along x).poly (.term _ 1) = _
  rw [Valuation.poly_term, map_one, one_mul, value]

/-! ## Expressions -/

/-- Normalising the expression gives a polynomial over one with the value `F`, or
exceeds a size guard. -/
def Computes (max : Nat) (x : String) (e : Expr) (F : RatFunc (Coefficients x)) : Prop :=
  Ensures (Fraction.ofExpr max e) (Whole x · F) IsRefusal

variable {e b : Expr} {xs : List Expr} {Fs : List (RatFunc (Coefficients x))}

theorem computes_number (q : Rat) :
    Computes max x (.number q) (algebraMap ℚ (RatFunc (Coefficients x)) q) := by
  unfold Computes
  rw [Fraction.ofExpr]
  exact Whole.constant q

theorem computes_symbol (s : String) : Computes max x (.symbol s)
    (algebraMap (Coefficients x)[X] (RatFunc (Coefficients x)) (symbolIn x s)) := by
  unfold Computes
  rw [Fraction.ofExpr]
  exact Whole.symbol x s

theorem computes_sum (each : List.Forall₂ (Computes max x) xs Fs) :
    Computes max x (.sum xs) Fs.sum := by
  have run : ∀ {xs Fs}, List.Forall₂ (Computes max x) xs Fs → ∀ {r F}, Whole x r F →
      Ensures (Fraction.ofSum max r xs) (Whole x · (F + Fs.sum)) IsRefusal := by
    intro xs Fs each
    induction each with
    | nil =>
      intro r F start
      rw [Fraction.ofSum, List.sum_nil, add_zero]
      exact start
    | cons head _ ih =>
      intro r F start
      rw [Fraction.ofSum, List.sum_cons, ← add_assoc]
      exact .bind head fun s next => .bind (add_whole start next) fun t total => ih total
  have zero : Whole x .zero 0 := ⟨rfl, .zero, (along x).poly_zero⟩
  unfold Computes
  rw [Fraction.ofExpr, ← zero_add Fs.sum]
  exact run each zero

theorem computes_product (each : List.Forall₂ (Computes max x) xs Fs) :
    Computes max x (.product xs) Fs.prod := by
  have run : ∀ {xs Fs}, List.Forall₂ (Computes max x) xs Fs → ∀ {r F}, Whole x r F →
      Ensures (Fraction.ofProduct max r xs) (Whole x · (F * Fs.prod)) IsRefusal := by
    intro xs Fs each
    induction each with
    | nil =>
      intro r F start
      rw [Fraction.ofProduct, List.prod_nil, mul_one]
      exact start
    | cons head _ ih =>
      intro r F start
      rw [Fraction.ofProduct, List.prod_cons, ← mul_assoc]
      exact .bind head fun s next => .bind (mul_whole start next) fun t total => ih total
  unfold Computes
  rw [Fraction.ofExpr, ← one_mul Fs.prod]
  exact run each .one

/-- A power whose exponent comes out as an integer: one that is not negative, or
one of a symbol that may be divided by. -/
theorem computes_power (base : Computes max x b F)
    (exponent : Computes max x e (algebraMap ℚ (RatFunc (Coefficients x)) n))
    (regular : 0 ≤ n ∨ ∃ s, s ≠ x ∧ b = .symbol s) : Computes max x (.power b e) (F ^ n) := by
  unfold Computes
  rw [Fraction.ofExpr]
  refine .bind (base.and fun r ran => ran) ?_
  rintro r ⟨whole, ran⟩
  refine .bind exponent fun s integer => ?_
  rw [integer.eq_constant, Fraction.pow_int]
  split
  · rename_i fits
    rcases regular with nonneg | ⟨s, other, rfl⟩
    · exact powInt_whole whole nonneg max
    · rw [Fraction.ofExpr] at ran
      cases ran
      rw [← whole.value, (Whole.symbol x s).value]
      exact powInt_symbol (fun _ => other) fits max
  · exact .inl ⟨_, rfl⟩

theorem computes_power_nat {k : Nat} (base : Computes max x b F)
    (exponent : Computes max x e (algebraMap ℚ (RatFunc (Coefficients x)) (k : Int))) :
    Computes max x (.power b e) (F ^ k) := by
  rw [← zpow_natCast]
  exact computes_power base exponent (.inl (Int.natCast_nonneg k))

theorem computes_variable : Computes max x (.symbol x) RatFunc.X := by
  rw [← RatFunc.algebraMap_X, ← symbolIn_self]
  exact computes_symbol x

/-! ## Trees of polynomials -/

/-- The expression computes the polynomial `P` in the variable; at `a` it
computes the value of `P`, and its derivative the derivative of `P`. -/
structure Follows (max : Nat) (x : String) (a : Rat) (e : Expr) (P : (Coefficients x)[X]) : Prop where
  value : Computes max x e (algebraMap _ _ P)
  point : Computes max x (e.substitute x (.number a)) (RatFunc.C (P.eval (algebraMap ℚ _ a)))
  slope : Computes max x (e.derivative x) (algebraMap _ _ (derivative P))
  fixed : e.mentions x = false → derivative P = 0

variable {a : Rat} {P : (Coefficients x)[X]} {Ps Qs : List (Coefficients x)[X]} {ys : List Expr}

theorem algebraMap_literal (x : String) (q : Rat) :
    algebraMap ℚ (RatFunc (Coefficients x)) q = RatFunc.C (algebraMap ℚ (Coefficients x) q) :=
  RingHom.congr_fun (RingHom.ext_rat (algebraMap ℚ (RatFunc (Coefficients x)))
    (RatFunc.C.comp (algebraMap ℚ (Coefficients x)))) q

theorem computes_zero : Computes max x .zero 0 := by
  have literal : Computes max x (.number 0) _ := computes_number 0
  rwa [map_zero] at literal

theorem follows_of_unmentioned {c : Coefficients x} (unmentioned : e.mentions x = false)
    (computes : Computes max x e (RatFunc.C c)) : Follows max x a e (C c) where
  value := by rwa [RatFunc.algebraMap_C]
  point := by rwa [Expr.substitute_of_unmentioned unmentioned, eval_C]
  slope := by
    rw [Expr.derivative_of_unmentioned unmentioned, derivative_C, map_zero]
    exact computes_zero
  fixed _ := derivative_C

theorem follows_number (q : Rat) :
    Follows max x a (.number q) (C (algebraMap ℚ (Coefficients x) q)) := by
  refine follows_of_unmentioned (by rw [Expr.mentions]) ?_
  rw [← algebraMap_literal]
  exact computes_number q

theorem computes_int (n : Int) : Computes max x (.int n) (algebraMap ℚ (RatFunc (Coefficients x)) n) :=
  computes_number _

theorem follows_variable : Follows max x a (.symbol x) X where
  value := by
    rw [RatFunc.algebraMap_X]
    exact computes_variable
  point := by
    rw [Expr.substitute, if_pos rfl, eval_X, ← algebraMap_literal]
    exact computes_number a
  slope := by
    rw [Expr.derivative, if_pos rfl, derivative_X, map_one, ← map_one (algebraMap ℚ _)]
    exact computes_number 1
  fixed unmentioned := by simp [Expr.mentions] at unmentioned

/-- A power of the variable. -/
theorem follows_variable_power {k : Nat} (positive : 0 < k) :
    Follows max x a (.power (.symbol x) (.int k)) (X ^ k) where
  value := by
    rw [map_pow, RatFunc.algebraMap_X]
    exact computes_power_nat computes_variable (computes_int k)
  point := by
    rw [Expr.substitute, Expr.substitute, if_pos rfl, Expr.int, Expr.substitute, eval_pow, eval_X,
      map_pow, ← algebraMap_literal]
    exact computes_power_nat (computes_number a) (computes_int k)
  slope := by
    have shape : (Expr.power (.symbol x) (.int k)).derivative x =
        .product [.int k, .power (.symbol x) (.sum [.int k, .number (-1)]), .number 1] := by
      simp [Expr.derivative, Expr.mentions, Expr.powerDerivative, Expr.int]
      rfl
    have exponent : Computes max x (.sum [.int k, .number (-1)])
        (algebraMap ℚ (RatFunc (Coefficients x)) ((k - 1 : Nat) : Int)) := by
      have total : Computes max x (.sum [.int k, .number (-1)]) _ :=
        computes_sum (.cons (computes_int k) (.cons (computes_number (-1)) .nil))
      have value : [algebraMap ℚ (RatFunc (Coefficients x)) (k : Int),
          algebraMap ℚ (RatFunc (Coefficients x)) (-1)].sum =
          algebraMap ℚ (RatFunc (Coefficients x)) ((k - 1 : Nat) : Int) := by
        rw [List.sum_cons, List.sum_singleton, ← map_add]
        congr 1
        push_cast [Nat.cast_sub positive]
        ring
      rwa [value] at total
    have product := computes_product (.cons (computes_int k)
      (.cons (computes_power_nat computes_variable exponent) (.cons (computes_number 1) .nil)))
    rw [shape, derivative_X_pow, map_mul, map_pow, RatFunc.algebraMap_X]
    simpa using product
  fixed unmentioned := by simp [Expr.mentions] at unmentioned

/-- A power of a symbol, with a positive exponent if the symbol is the variable. -/
theorem follows_raised {s : String} {n : Int} (positive : s = x → 0 < n) :
    ∃ P : (Coefficients x)[X], Follows max x a (Expr.raised (.symbol s) n) P ∧
      algebraMap _ _ P = algebraMap (Coefficients x)[X] (RatFunc (Coefficients x)) (symbolIn x s) ^ n := by
  by_cases own : s = x
  · subst own
    obtain ⟨k, rfl⟩ := Int.eq_ofNat_of_zero_le (positive rfl).le
    refine ⟨X ^ k, ?_, ?_⟩
    · unfold Expr.raised
      split
      · rename_i one
        obtain rfl : k = 1 := by omega
        rw [pow_one]
        exact follows_variable
      · exact follows_variable_power (by have := positive rfl; omega)
    · rw [symbolIn_self, map_pow, zpow_natCast]
  · obtain ⟨c, nonzero, value⟩ := symbolIn_other own
    have symbol : Computes max x (.symbol s) _ := computes_symbol s
    refine ⟨C (c ^ n), follows_of_unmentioned ?_ ?_, ?_⟩
    · have unmentioned : (s == x) = false := beq_eq_false_iff_ne.mpr own
      unfold Expr.raised
      split
      · rw [Expr.mentions, unmentioned]
      · rw [Expr.mentions, Expr.mentions, unmentioned, Expr.int, Expr.mentions]
        rfl
    · rw [map_zpow₀, ← RatFunc.algebraMap_C, ← value]
      unfold Expr.raised
      split
      · rename_i one
        rw [one, zpow_one]
        exact symbol
      · exact computes_power symbol (computes_int n) (.inr ⟨s, own, rfl⟩)
    · rw [value, RatFunc.algebraMap_C, RatFunc.algebraMap_C, map_zpow₀]

/-! ## Sums and products -/

theorem Follows.values (each : List.Forall₂ (Follows max x a) xs Ps) :
    List.Forall₂ (Computes max x) xs (Ps.map (algebraMap _ _)) := by
  rw [List.forall₂_map_right_iff]
  exact each.imp fun _ _ follows => follows.value

theorem Follows.points (each : List.Forall₂ (Follows max x a) xs Ps) :
    List.Forall₂ (Computes max x) (Expr.substituteAll xs x (.number a))
      (Ps.map (RatFunc.C.comp (evalRingHom (algebraMap ℚ _ a)))) := by
  induction each with
  | nil =>
    rw [Expr.substituteAll]
    exact .nil
  | cons head _ ih =>
    rw [Expr.substituteAll]
    exact .cons head.point ih

theorem Follows.slopes (each : List.Forall₂ (Follows max x a) xs Ps) :
    List.Forall₂ (Computes max x) (Expr.derivatives x xs)
      ((Ps.map derivative).map (algebraMap _ _)) := by
  induction each with
  | nil =>
    rw [Expr.derivatives]
    exact .nil
  | cons head _ ih =>
    rw [Expr.derivatives]
    exact .cons head.slope ih

theorem Follows.fixed_all (each : List.Forall₂ (Follows max x a) xs Ps)
    (unmentioned : Expr.mentionsAny x xs = false) : ∀ P ∈ Ps, derivative P = 0 := by
  induction each with
  | nil => exact fun _ member => absurd member List.not_mem_nil
  | cons head _ ih =>
    rw [Expr.mentionsAny, Bool.or_eq_false_iff] at unmentioned
    exact List.forall_mem_cons.mpr ⟨head.fixed unmentioned.1, ih unmentioned.2⟩

theorem follows_sum (each : List.Forall₂ (Follows max x a) xs Ps) :
    Follows max x a (.sum xs) Ps.sum := by
  have linear : derivative Ps.sum = (Ps.map derivative).sum := map_list_sum _ _
  have fixed : Expr.mentionsAny x xs = false → derivative Ps.sum = 0 := by
    intro unmentioned
    rw [linear]
    refine List.sum_eq_zero fun Q member => ?_
    obtain ⟨P, old, rfl⟩ := List.mem_map.mp member
    exact Follows.fixed_all each unmentioned P old
  refine ⟨?_, ?_, ?_, fun unmentioned => fixed (by rwa [Expr.mentions] at unmentioned)⟩
  · rw [map_list_sum]
    exact computes_sum (Follows.values each)
  · rw [Expr.substitute]
    have total := computes_sum (Follows.points each)
    rwa [← map_list_sum] at total
  · rw [Expr.derivative]
    split
    · rw [linear, map_list_sum]
      exact computes_sum (Follows.slopes each)
    · rename_i unmentioned
      rw [fixed (Bool.not_eq_true _ ▸ unmentioned), map_zero]
      exact computes_zero

/-- The terms of the product rule add up to the derivative of a product. -/
theorem computes_productRule (before : List.Forall₂ (Follows max x a) ys Qs)
    (each : List.Forall₂ (Follows max x a) xs Ps) :
    ∃ Fs, List.Forall₂ (Computes max x) (Expr.productRule x ys xs) Fs ∧
      Fs.sum = algebraMap _ _ (Qs.prod * derivative Ps.prod) := by
  induction each generalizing ys Qs with
  | nil =>
    refine ⟨[], ?_, by simp⟩
    rw [Expr.productRule]
    exact .nil
  | @cons y P xs Ps head tail ih =>
    obtain ⟨Fs, rest, sum⟩ := ih (List.rel_append before (.cons head .nil))
    rw [Expr.productRule]
    split
    · have factors : List.Forall₂ (Computes max x) (ys ++ y.derivative x :: xs)
          (Qs.map (algebraMap _ _) ++ algebraMap _ _ (derivative P) :: Ps.map (algebraMap _ _)) :=
        List.rel_append (Follows.values before) (.cons head.slope (Follows.values tail))
      refine ⟨_, .cons (computes_product factors) rest, ?_⟩
      rw [List.sum_cons, sum, List.prod_append, List.prod_cons, ← map_list_prod, ← map_list_prod,
        ← map_mul, ← map_mul, ← map_add, List.prod_append, List.prod_singleton, List.prod_cons,
        derivative_mul]
      congr 1
      ring
    · rename_i unmentioned
      refine ⟨Fs, rest, ?_⟩
      rw [sum, List.prod_append, List.prod_singleton, List.prod_cons, derivative_mul,
        head.fixed (by simpa using unmentioned), zero_mul, zero_add, mul_assoc]

theorem follows_product (each : List.Forall₂ (Follows max x a) xs Ps) :
    Follows max x a (.product xs) Ps.prod := by
  have fixed : Expr.mentionsAny x xs = false → derivative Ps.prod = 0 := by
    intro unmentioned
    have all := Follows.fixed_all each unmentioned
    clear each
    induction Ps with
    | nil => simp
    | cons P Ps ih =>
      obtain ⟨head, tail⟩ := List.forall_mem_cons.mp all
      rw [List.prod_cons, derivative_mul, head, ih tail, zero_mul, mul_zero, add_zero]
  refine ⟨?_, ?_, ?_, fun unmentioned => fixed (by rwa [Expr.mentions] at unmentioned)⟩
  · rw [map_list_prod]
    exact computes_product (Follows.values each)
  · rw [Expr.substitute]
    have total := computes_product (Follows.points each)
    rwa [← map_list_prod] at total
  · rw [Expr.derivative]
    split
    · obtain ⟨Fs, terms, sum⟩ := computes_productRule .nil each
      rw [List.prod_nil, one_mul] at sum
      rw [← sum]
      exact computes_sum terms
    · rename_i unmentioned
      rw [fixed (Bool.not_eq_true _ ▸ unmentioned), map_zero]
      exact computes_zero

/-! ## Trees of canonical polynomials -/

theorem follows_ofFactors (each : List.Forall₂ (Follows max x a) xs Ps) :
    Follows max x a (.ofFactors xs) Ps.prod := by
  unfold Expr.ofFactors
  split
  · obtain ⟨P, rest, single, none, rfl⟩ := List.forall₂_cons_left_iff.mp each
    obtain rfl := List.forall₂_nil_left_iff.mp none
    rwa [List.prod_singleton]
  · exact follows_product each

theorem follows_ofTerms (each : List.Forall₂ (Follows max x a) xs Ps) :
    Follows max x a (.ofTerms xs) Ps.sum := by
  unfold Expr.ofTerms
  split
  · obtain rfl := List.forall₂_nil_left_iff.mp each
    have literal : Follows max x a (.number 0) _ := follows_number 0
    rwa [map_zero, map_zero] at literal
  · obtain ⟨P, rest, single, none, rfl⟩ := List.forall₂_cons_left_iff.mp each
    obtain rfl := List.forall₂_nil_left_iff.mp none
    rwa [List.sum_singleton]
  · exact follows_sum each

theorem follows_ofTerm (c : Rat) (each : List.Forall₂ (Follows max x a) xs Ps) :
    Follows max x a (.ofTerm c xs []) (C (algebraMap ℚ (Coefficients x) c) * Ps.prod) := by
  unfold Expr.ofTerm
  dsimp only
  rw [List.append_nil]
  split
  · rename_i one
    rw [one.1, map_one, map_one, one_mul]
    exact follows_ofFactors each
  · have product := follows_ofFactors (.cons (follows_number c) each)
    rwa [List.prod_cons] at product

theorem follows_factors {fs : List (Atom × Int)} (each : ∀ f ∈ fs, (along x).AdmitsFactor f) :
    ∃ Ps, List.Forall₂ (Follows max x a) (factorsToExprs fs) Ps ∧
      algebraMap _ _ Ps.prod = (along x).factors fs := by
  induction fs with
  | nil =>
    refine ⟨[], ?_, by simp⟩
    rw [factorsToExprs]
    exact .nil
  | cons f fs ih =>
    obtain ⟨head, tail⟩ := List.forall_mem_cons.mp each
    obtain ⟨Ps, rest, value⟩ := ih tail
    obtain ⟨b, n⟩ := f
    obtain ⟨s, rfl⟩ := head.known
    have positive : s = x → 0 < n := by
      rintro rfl
      have nonzero := head.nonzero
      by_contra negative
      obtain ⟨t, other, same⟩ := head.regular (by dsimp only at nonzero ⊢; omega)
      exact other (Atom.symbol.inj same).symm
    obtain ⟨P, first, power⟩ : ∃ P, Follows max x a _ P ∧ _ := follows_raised positive
    refine ⟨P :: Ps, ?_, ?_⟩
    · rw [factorsToExprs, Atom.toExpr]
      exact .cons first rest
    · rw [List.prod_cons, map_mul, value, power, Valuation.factors_cons, intPower_eq_zpow]
      rfl

theorem follows_terms {ts : List (Monomial × Rat)} (each : ∀ t ∈ ts, (along x).Admits t.1) :
    ∃ Ps, List.Forall₂ (Follows max x a) (termsToExprs ts) Ps ∧
      algebraMap _ _ Ps.sum = (along x).terms ts := by
  induction ts with
  | nil =>
    refine ⟨[], ?_, by simp⟩
    rw [termsToExprs]
    exact .nil
  | cons t ts ih =>
    obtain ⟨head, tail⟩ := List.forall_mem_cons.mp each
    obtain ⟨Ps, rest, sum⟩ := ih tail
    have exponent := exp_eq_zero (admits_of_along head)
    obtain ⟨⟨fs, e⟩, c⟩ := t
    obtain ⟨Qs, factors, product⟩ : ∃ Qs, List.Forall₂ (Follows max x a) _ Qs ∧ _ :=
      follows_factors head.factor
    obtain rfl : e = .zero := exponent
    refine ⟨C (algebraMap ℚ (Coefficients x) c) * Qs.prod :: Ps, ?_, ?_⟩
    · rw [termsToExprs, Poly.zero, exponentialToExprs]
      exact .cons (follows_ofTerm c factors) rest
    · rw [List.sum_cons, map_add, map_mul, sum, product, RatFunc.algebraMap_C, ← algebraMap_literal,
        Valuation.terms_cons, Valuation.monomial_eq]
      congr 2
      exact (mul_one _).symm

/-- The tree of a polynomial without negative exponents of the variable follows
the polynomial that is its value. -/
theorem follows_toExpr (admitted : (along x).AdmitsPoly p) (max : Nat) (a : Rat) :
    ∃ P : (Coefficients x)[X], Follows max x a (Fraction.ofPoly p).toExpr P ∧
      (along x).poly p = algebraMap _ _ P := by
  obtain ⟨Ps, terms, sum⟩ : ∃ Ps, List.Forall₂ (Follows max x a) _ Ps ∧ _ :=
    follows_terms admitted.all
  obtain ⟨ts⟩ := p
  refine ⟨Ps.sum, ?_, ?_⟩
  · rw [Fraction.ofPoly, Fraction.toExpr, if_pos (by decide), Poly.toExpr]
    exact follows_ofTerms terms
  · rw [Valuation.poly_eq, sum]

end RationalFunction

end Discharge
