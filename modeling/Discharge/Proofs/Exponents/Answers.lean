import Discharge.Oracle
import Discharge.Proofs.Exponents.Limits
import Discharge.Proofs.Rational.Tree

/-! The exponents behind the answers of the oracle. Every question is answered as
with exact exponents, unless one of those is no machine integer: then there is no
answer, and no error is reported either. -/

namespace Discharge

namespace Recorded

/-! ## Distributed and factored forms -/

def expanded (r : Fraction) : Recorded Expr := do
  if r.den.isOne then return r.toExpr
  let reciprocal := (← make .one r.den).toExpr
  match r.num.terms.map fun t => (Fraction.ofPoly (.term t.1 t.2)).toExpr * reciprocal with
  | [x] => return x
  | xs => return .sum xs

def factored (r : Fraction) : Recorded Expr := do
  if r.isZero then return .zero
  let content := r.signedContent
  let common := r.num.commonMonomial
  let inner ← (r.num.scale content⁻¹).shift (← reciprocal common)
  let outer := (Fraction.ofPoly (.term common content)).toExpr
  let inner := if inner.isOne then [] else [(Fraction.ofPoly inner).toExpr]
  let den := if r.den.isOne then [] else [Expr.power (Fraction.ofPoly r.den).toExpr (.int (-1))]
  match (outer :: (inner ++ den)).filter fun e => e.rational? ≠ some 1 with
  | [] => return .one
  | [x] => return x
  | xs => return .product xs

/-! ## Intervals -/

def sideOfFinite (e : Expr) (max : Nat) : Recorded Interval.Side := do
  let r ← ofExpr max e
  if r.isZero then return .origin
  let undecided := Failure.unsupported ("cannot place bound " ++ e.render ++ " relative to 0")
  if r.hasSymbols then fail undecided
  match r.approx?.filter Approx.isFinite with
  | none => fail undecided
  | some value =>
    let size := value.re.abs
    let size := if size < 1 then 1 else size
    if value.im.abs > 1e-12 * size then
      fail (.unsupported ("bound " ++ e.render ++ " is not real"))
    return if value.re < 0 then .negative else .positive

def sideOf (point : LimitPoint) (max : Nat) : Recorded Interval.Side :=
  match point with
  | .posInfinity => pure .positive
  | .negInfinity => pure .negative
  | .finite e => sideOfFinite e max

def check (i : Interval) (integrand : Fraction) (var : String) (max : Nat) : Recorded Unit := do
  let pole := Interval.hasPole integrand var
  let logarithm := Interval.hasLogarithm integrand var
  if !pole && !logarithm then return
  let lower ← sideOf i.lower max
  let upper ← sideOf i.upper max
  let spansOrigin := lower ≠ upper || lower = .origin
  if pole && spansOrigin then
    fail (.divergent (integrand.toExpr.render ++ " has a pole at " ++ var
      ++ " = 0 within " ++ i.render))
  if logarithm && (lower = .negative || upper = .negative) then
    fail (.unsupported ("ln(" ++ var ++ ") is not real on " ++ i.render))

def boundValue (guards : Guards) (r : Fraction) (var : String) : LimitPoint → Recorded Fraction
  | .finite e => ofExpr guards.maxPower (r.toExpr.substitute var e)
  | infinite => limit r var infinite guards

def integral (guards : Guards) (e : Expr) (var : String) (bounds : Option Interval) :
    Recorded Expr := do
  let integrand ← ofExpr guards.maxPower e
  let primitive ← antiderivative integrand var guards.maxPower
  match bounds with
  | none => return primitive.toExpr
  | some interval => do
    check interval integrand var guards.maxPower
    let upper ← boundValue guards primitive var interval.upper
    let lower ← boundValue guards primitive var interval.lower
    return (← sub upper lower).toExpr

end Recorded

/-! ## Questions -/

/-- A question to an oracle. -/
inductive Question where
  | simplify (e : Expr)
  | expand (e : Expr)
  | factor (e : Expr)
  | limit (e : Expr) (var : String) (point : LimitPoint)
  | differentiate (e : Expr) (var : String)
  | integrate (e : Expr) (var : String) (bounds : Option Interval)
  | isZero (e : Expr)
  | isConstant (e : Expr)

/-- What an oracle answers: an expression, or whether something holds. -/
inductive Answer where
  | expression (e : Expr)
  | holds (b : Bool)
  deriving DecidableEq

namespace Question

/-- The answer of an oracle. -/
def ask (oracle : Oracle) : Question → Outcome Answer
  | .simplify e => (oracle.simplify e).map .expression
  | .expand e => (oracle.expand e).map .expression
  | .factor e => (oracle.factor e).map .expression
  | .limit e var point => (oracle.limit e var point).map .expression
  | .differentiate e var => (oracle.differentiate e var).map .expression
  | .integrate e var bounds => (oracle.integrate e var bounds).map .expression
  | .isZero e => (oracle.isZero e).map .holds
  | .isConstant e => (oracle.isConstant e).map .holds

/-- The computation of the exact oracle with exact exponents. -/
def recorded (guards : Guards) : Question → Recorded Answer
  | .simplify e => .expression <$> Fraction.toExpr <$> Recorded.ofExpr guards.maxPower e
  | .expand e => .expression <$> do Recorded.expanded (← Recorded.ofExpr guards.maxPower e)
  | .factor e => .expression <$> do Recorded.factored (← Recorded.ofExpr guards.maxPower e)
  | .limit e var point => .expression <$> do
    let r ← Recorded.ofExpr guards.maxPower e
    return (← Recorded.limit r var point guards).toExpr
  | .differentiate e var =>
    .expression <$> Fraction.toExpr <$> Recorded.ofExpr guards.maxPower (e.derivative var)
  | .integrate e var bounds => .expression <$> Recorded.integral guards e var bounds
  | .isZero e => .holds <$> Fraction.isZero <$> Recorded.ofExpr guards.maxPower e
  | .isConstant e =>
    .holds <$> (fun r => !r.hasSymbols) <$> Recorded.ofExpr guards.maxPower e

end Question

namespace Recorded

open Fraction (Belongs)

variable {max : Nat} {r : Fraction} {x : String}

theorem expanded_follows (canonical : r.Canonical max) :
    Follows (fun _ => True) (expanded r) r.expanded := by
  refine .ite (fun _ => .answer trivial) fun _ => ?_
  refine .bind (make_follows (Poly.admittedClass max).one canonical.admitted.den)
    fun reciprocal _ => ?_
  dsimp only
  generalize r.num.terms.map (fun t => (Fraction.ofPoly (.term t.1 t.2)).toExpr *
    reciprocal.toExpr) = terms
  match terms with
  | [] | [x] | x :: y :: xs => exact .answer trivial

theorem factored_follows (canonical : r.Canonical max) :
    Follows (fun _ => True) (factored r) r.factored := by
  have common := Valuation.AdmitsPoly.commonMonomial canonical.admitted.num
  have yields {y : Outcome Poly} : Yields y fun _ => True := by cases y <;> trivial
  refine .ite (fun _ => .answer trivial) fun _ => ?_
  refine .bind (.reciprocal fun f member => (common.factor f member).fits) fun inverse _ => ?_
  refine .bind (.lift yields) fun inner _ => ?_
  dsimp only
  generalize List.filter _ _ = factors
  match factors with
  | [] | [x] | x :: y :: xs => exact .answer trivial

theorem sideOf_follows (fits : fitsInt64 max = true) (point : LimitPoint) :
    Follows (fun _ => True) (sideOf point max) (Interval.sideOf point max) := by
  cases point with
  | posInfinity => exact .answer trivial
  | negInfinity => exact .answer trivial
  | finite e =>
    refine .bind (ofExpr_follows fits e) fun r _ => ?_
    refine .ite (fun _ => .answer trivial) fun _ => .ite (fun _ => .fail) fun _ => ?_
    cases r.approx?.filter Approx.isFinite with
    | none => exact .fail
    | some value => exact .ite (fun _ => .fail) fun _ => .answer trivial

theorem check_follows (fits : fitsInt64 max = true) (i : Interval) (r : Fraction) (x : String) :
    Follows (fun _ => True) (check i r x max) (i.check r x max) := by
  refine .ite (fun _ => .answer trivial) fun _ => ?_
  refine .bind (sideOf_follows fits i.lower) fun lower _ => ?_
  refine .bind (sideOf_follows fits i.upper) fun upper _ => ?_
  exact .ite (fun _ => .fail) fun _ => .ite (fun _ => .fail) fun _ => .answer trivial

variable {guards : Guards}

theorem boundValue_follows (fits : fitsInt64 guards.maxPower = true)
    (belongs : Belongs (Poly.Admitted guards.maxPower) r) (point : LimitPoint) :
    Follows (Belongs (Poly.Admitted guards.maxPower)) (boundValue guards r x point)
      (Oracle.boundValue guards r x point) := by
  cases point with
  | finite e => exact (ofExpr_follows fits _).mono fun _ => Fraction.Canonical.admitted
  | posInfinity => exact limit_follows guards fits belongs .posInfinity
  | negInfinity => exact limit_follows guards fits belongs .negInfinity

theorem integral_follows (fits : fitsInt64 guards.maxPower = true) (e : Expr) (x : String)
    (bounds : Option Interval) :
    Follows (fun _ => True) (integral guards e x bounds) (Oracle.integral guards e x bounds) := by
  refine .bind (ofExpr_follows fits e) fun integrand canonical => ?_
  refine .bind (antiderivative_follows canonical) fun primitive found => ?_
  cases bounds with
  | none => exact .answer trivial
  | some i =>
    refine .bind (check_follows fits i integrand x) fun _ _ => ?_
    refine .bind (boundValue_follows fits found i.upper) fun upper above => ?_
    refine .bind (boundValue_follows fits found i.lower) fun lower below => ?_
    exact .bind (sub_follows above below) fun t _ => .answer trivial

end Recorded

/-- The oracle follows the recorded computation of its answer. -/
theorem Question.follows {guards : Guards} (fits : fitsInt64 guards.maxPower = true)
    (q : Question) : Follows (fun _ => True) (q.recorded guards) (q.ask (.exact guards)) := by
  have normalised (e : Expr) := Recorded.ofExpr_follows fits e
  cases q with
  | simplify e => exact .map (.map (normalised e))
  | expand e =>
    exact .map (.bind (normalised e) fun r canonical => Recorded.expanded_follows canonical)
  | factor e =>
    exact .map (.bind (normalised e) fun r canonical => Recorded.factored_follows canonical)
  | limit e x point =>
    have answered {r : Fraction} (canonical : r.Canonical guards.maxPower) :
        Follows (fun _ => True) (do return (← Recorded.limit r x point guards).toExpr)
          (do return (← r.limit x point guards).toExpr) :=
      .bind (Recorded.limit_follows guards fits canonical.admitted point) fun t _ => .answer trivial
    exact .map (.bind (normalised e) fun r => answered)
  | differentiate e x => exact .map (.map (normalised _))
  | integrate e x bounds => exact .map (Recorded.integral_follows fits e x bounds)
  | isZero e => exact .map (.map (normalised e))
  | isConstant e => exact .map (.map (normalised e))

/-! ## The exponents of every answer -/

/-- Exponents are exact, or there is no answer. A product of monomials has sums of
exponents that are machine integers, or is refused. The oracle gives the answer or
the error of the computation with exact exponents as long as the negatives,
successors and squares among them are machine integers. At the first that is none
it is abandoned: at the negative of the least exponent, the successor of the
greatest or the square of one above 3037000499 in size. -/
theorem exponents_exact (guards : Guards) (machine : guards.maxPower ≤ 4294967295) :
    (∀ m n : Monomial, Ensures (m.combine n) (m.Sums n) Failure.IsTooLarge) ∧
    ∀ q : Question,
      match (q.recorded guards).overflow? with
      | none => q.ask (.exact guards) = (q.recorded guards).outcome
      | some s => q.ask (.exact guards) = .error (.overflow s.name) ∧ s.Extreme := by
  refine ⟨Monomial.combine_sums, fun q => ?_⟩
  have fits : fitsInt64 guards.maxPower = true := by
    rw [Monomial.fitsInt64_iff]
    omega
  have follows := q.follows fits
  unfold Follows at follows
  split
  · rename_i within
    rw [within] at follows
    exact follows.1
  · rename_i s beyond
    rwa [beyond] at follows

/-- The expression `((x^n)^64)…^64`, which is `x^(n·64^k)`. -/
def powerTower (n : Int) : Nat → Expr
  | 0 => .power (.symbol "x") (.int n)
  | k + 1 => .power (powerTower n k) (.int 64)

/-- The reciprocal of `x^(-2^63)·(1 + y)`. -/
def leastCommonMonomial : Question :=
  .simplify (.power (powerTower (-8) 10 + powerTower (-8) 10 * .symbol "y") (.int (-1)))

/-- The common monomial `x^(-2^63)` has no reciprocal. -/
theorem exponents_exact_leastCommonMonomial :
    (64 : Nat) ≤ 4294967295 ∧
      (leastCommonMonomial.recorded {}).overflow? = some ⟨.negative, leastExponent⟩ ∧
      leastCommonMonomial.ask (.exact {}) = .error (.overflow "negate") := by
  have machine : (64 : Nat) ≤ 4294967295 := by decide
  have beyond : (leastCommonMonomial.recorded {}).overflow? =
      some ⟨.negative, leastExponent⟩ := by decide +kernel
  have answer := (exponents_exact {} machine).2 leastCommonMonomial
  rw [beyond] at answer
  exact ⟨machine, beyond, answer.1⟩

/-- The antiderivative of `x^3037000499·ln(x)`. -/
def wideSquare : Question :=
  .integrate (.power (.symbol "x") (.int 3037000499) * .apply .ln (.symbol "x")) "x" none

/-- The antiderivative of `x^(2^62)·x^(-1)·x^(2^62)`. -/
def wideSuccessor : Question :=
  .integrate (powerTower 4 10 * .power (.symbol "x") (.int (-1)) * powerTower 4 10) "x" none

/-- The reciprocal of `√(x^(-2^63) + y) - y/√(x^(-2^63) + y)`, which has the
denominator `x^(-2^63)`. -/
def wideReciprocal : Question :=
  let root := Expr.apply .sqrt (powerTower (-8) 10 + .symbol "y")
  .simplify (.power (root - .symbol "y" / root) (.int (-1)))

/-- Exponents out of range that are not refused as a sum would be: the square of
3037000500, the successor of the greatest exponent and the negative of the least.
There is no answer, and no error is reported. -/
theorem exponents_crash :
    wideSquare.ask (.exact ⟨6, 4294967295⟩) = .error (.overflow "multiply") ∧
      wideSuccessor.ask (.exact {}) = .error (.overflow "add") ∧
      wideReciprocal.ask (.exact {}) = .error (.overflow "negate") := by
  decide +kernel

end Discharge
