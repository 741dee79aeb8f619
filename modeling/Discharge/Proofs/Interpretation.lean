import Mathlib.Algebra.Field.Rat
import Mathlib.Data.Rat.Cast.CharZero
import Mathlib.Algebra.BigOperators.Group.List.Lemmas
import Discharge.Expr

/-! The value of an expression in a field. An interpretation gives values to the
symbols, the named constants, the functions and the powers; the arithmetic
operators on trees then have the values of the operations that they are named
for. -/

namespace Discharge

/-- Values of all that the arithmetic of the field does not give. -/
structure Interpretation (K : Type*) where
  symbol : String → K
  constant : Constant → K
  apply : Function → K → K
  pow : K → K → K

namespace Expr

variable {K : Type*} [Field K] (I : Interpretation K)

mutual
/-- The value of an expression. -/
def value : Expr → K
  | .number q => (q : K)
  | .symbol s => I.symbol s
  | .constant c => I.constant c
  | .sum xs => (values xs).sum
  | .product xs => (values xs).prod
  | .power b e => I.pow (value b) (value e)
  | .apply f x => I.apply f (value x)

/-- The values of a list of expressions. -/
def values : List Expr → List K
  | [] => []
  | x :: xs => value x :: values xs
end

variable (a b e : Expr) (xs ys : List Expr) (q : Rat)

@[simp] theorem value_number : value I (.number q) = q := rfl

@[simp] theorem value_symbol (s : String) : value I (.symbol s) = I.symbol s := rfl

@[simp] theorem value_constant (c : Constant) : value I (.constant c) = I.constant c := rfl

@[simp] theorem value_sum : value I (.sum xs) = (values I xs).sum := rfl

@[simp] theorem value_product : value I (.product xs) = (values I xs).prod := rfl

@[simp] theorem value_power : value I (.power b e) = I.pow (value I b) (value I e) := rfl

@[simp] theorem value_apply (f : Function) : value I (.apply f e) = I.apply f (value I e) := rfl

@[simp] theorem values_nil : values I [] = [] := rfl

@[simp] theorem values_cons : values I (e :: xs) = value I e :: values I xs := rfl

theorem values_eq_map : values I xs = xs.map (value I) := by
  induction xs with
  | nil => simp
  | cons x xs ih => simp [ih]

@[simp] theorem values_append : values I (xs ++ ys) = values I xs ++ values I ys := by
  simp only [values_eq_map, List.map_append]

/-! ## Operators -/

@[simp] theorem sum_summands : (values I e.summands).sum = value I e := by
  cases e <;> simp [summands]

@[simp] theorem prod_multiplicands : (values I e.multiplicands).prod = value I e := by
  cases e <;> simp [multiplicands]

@[simp] theorem value_add : value I (a + b) = value I a + value I b := by
  change value I (.sum (a.summands ++ b.summands)) = _
  simp

@[simp] theorem value_mul : value I (a * b) = value I a * value I b := by
  change value I (.product (a.multiplicands ++ b.multiplicands)) = _
  simp

@[simp] theorem value_neg : value I (-a) = -value I a := by
  have product : value I (int (-1) * a) = -value I a := by simp [int]
  cases a with
  | number q =>
    change value I (.number (-q)) = _
    simp
  | _ => exact product

@[simp] theorem value_sub : value I (a - b) = value I a - value I b := by
  change value I (a + -b) = _
  rw [value_add, value_neg, sub_eq_add_neg]

end Expr

end Discharge
