import Discharge.Expr

/-!
The derivative of an expression tree, by the usual rules and without any
simplification.  A subtree that does not mention the variable has the derivative
zero, and factors that do not mention it give no term of the product rule.
-/

namespace Discharge.Expr

/-- The derivative of a function at an argument, before the chain rule. -/
def outerDerivative (f : Function) (x : Expr) : Expr :=
  match f with
  | .exp => .apply .exp x
  | .ln => one / x
  | .sqrt => one / (int 2 * .apply .sqrt x)
  | .sin => .apply .cos x
  | .cos => -.apply .sin x
  | .tan => one / .power (.apply .cos x) (int 2)
  | .sinh => .apply .cosh x
  | .cosh => .apply .sinh x

/-- The derivative of a power from the derivatives of its base and exponent. -/
def powerDerivative (var : String) (base exponent dBase dExponent : Expr) : Expr :=
  let power := Expr.power base exponent
  if !exponent.mentions var then exponent * .power base (exponent - one) * dBase
  else if !base.mentions var then power * .apply .ln base * dExponent
  else power * (dExponent * .apply .ln base + exponent * dBase / base)

mutual
/-- The derivative with respect to `var`. -/
def derivative (var : String) : Expr → Expr
  | .number _ | .constant _ => zero
  | .symbol s => if s = var then one else zero
  | .sum xs => if mentionsAny var xs then .sum (derivatives var xs) else zero
  | .product xs => if mentionsAny var xs then .sum (productRule var [] xs) else zero
  | .power b e =>
    if mentions var b || mentions var e then
      powerDerivative var b e (derivative var b) (derivative var e)
    else zero
  | .apply f x => if mentions var x then outerDerivative f x * derivative var x else zero

/-- The derivatives of a list of trees. -/
def derivatives (var : String) : List Expr → List Expr
  | [] => []
  | x :: xs => derivative var x :: derivatives var xs

/-- The terms of the product rule for the factors after `before`. -/
def productRule (var : String) (before : List Expr) : List Expr → List Expr
  | [] => []
  | x :: xs =>
    let rest := productRule var (before ++ [x]) xs
    if mentions var x then .product (before ++ derivative var x :: xs) :: rest else rest
end

end Discharge.Expr
