import Discharge.Calculus.Limit

/-!
The oracle: the symbolic questions that verification asks.

An `Oracle` is a record of operations, each of which may answer, report an error
or be abandoned, so that any other source of answers can stand in for the
built-in one.  `Oracle.exact` computes with canonical forms under given guards.
-/

namespace Discharge

/-- The symbolic operations that strategies rely on. -/
structure Oracle where
  /-- The canonical simplified form. -/
  simplify : Expr → Outcome Expr
  /-- The fully distributed form. -/
  expand : Expr → Outcome Expr
  /-- The form with rational content and common factors pulled out. -/
  factor : Expr → Outcome Expr
  /-- The limit as a variable approaches a point. -/
  limit : Expr → String → LimitPoint → Outcome Expr
  /-- The derivative with respect to a variable. -/
  differentiate : Expr → String → Outcome Expr
  /-- An antiderivative, or the integral over an interval. -/
  integrate : Expr → String → Option Interval → Outcome Expr
  /-- Is the expression zero? -/
  isZero : Expr → Outcome Bool
  /-- Does the expression simplify to a value without symbols? -/
  isConstant : Expr → Outcome Bool

namespace Fraction

/-- The distributed form: every term of the numerator over the denominator. -/
def expanded (r : Fraction) : Outcome Expr := do
  if r.den.isOne then return r.toExpr
  let reciprocal := (← make .one r.den).toExpr
  match r.num.terms.map fun t => (ofPoly (.term t.1 t.2)).toExpr * reciprocal with
  | [x] => return x
  | xs => return .sum xs

/-- The content of the numerator with the sign of its first coefficient. -/
def signedContent (r : Fraction) : Rat :=
  if r.num.leading?.getD 1 < 0 then -r.num.content else r.num.content

/-- The factored form: content and common monomial, what is left of the
numerator, and the denominator; factors one are left out. -/
def factored (r : Fraction) : Outcome Expr := do
  if r.isZero then return .zero
  let content := r.signedContent
  let common := r.num.commonMonomial
  let inner ← (r.num.scale content⁻¹).shift (← common.inverse)
  let outer := (ofPoly (.term common content)).toExpr
  let inner := if inner.isOne then [] else [(ofPoly inner).toExpr]
  let den := if r.den.isOne then [] else [Expr.power (ofPoly r.den).toExpr (.int (-1))]
  match (outer :: (inner ++ den)).filter fun e => e.rational? ≠ some 1 with
  | [] => return .one
  | [x] => return x
  | xs => return .product xs

end Fraction

namespace Oracle

/-- The value of an antiderivative at a bound: by substitution at a finite one,
as a limit at an infinite one. -/
def boundValue (guards : Guards) (r : Fraction) (var : String) :
    LimitPoint → Outcome Fraction
  | .finite e => Fraction.ofExpr guards.maxPower (r.toExpr.substitute var e)
  | infinite => r.limit var infinite guards

/-- The integral over an interval, or an antiderivative. -/
def integral (guards : Guards) (e : Expr) (var : String) (bounds : Option Interval) :
    Outcome Expr := do
  let integrand ← Fraction.ofExpr guards.maxPower e
  let primitive ← integrand.antiderivative var guards.maxPower
  match bounds with
  | none => return primitive.toExpr
  | some interval => do
    interval.check integrand var guards.maxPower
    let upper ← boundValue guards primitive var interval.upper
    let lower ← boundValue guards primitive var interval.lower
    return (← upper.sub lower).toExpr

/-- The built-in oracle under the given guards. -/
def exact (guards : Guards) : Oracle where
  simplify e := (Fraction.ofExpr guards.maxPower e).map Fraction.toExpr
  expand e := do (← Fraction.ofExpr guards.maxPower e).expanded
  factor e := do (← Fraction.ofExpr guards.maxPower e).factored
  limit e var point := do
    let r ← Fraction.ofExpr guards.maxPower e
    return (← r.limit var point guards).toExpr
  differentiate e var :=
    (Fraction.ofExpr guards.maxPower (e.derivative var)).map Fraction.toExpr
  integrate := integral guards
  isZero e := (Fraction.ofExpr guards.maxPower e).map Fraction.isZero
  isConstant e := (Fraction.ofExpr guards.maxPower e).map fun r => !r.hasSymbols

end Oracle

end Discharge
