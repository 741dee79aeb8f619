import Discharge.Normal.OfExpr
import Discharge.Normal.ToExpr
import Discharge.Normal.Approx
import Discharge.LimitPoint

/-!
Antiderivatives, term by term.

Every monomial of the numerator is split into a part that depends on the
variable and a factor that does not.  The dependent part must be a power of the
variable, alone, with `ln` of the variable, or (a natural power) with an
exponential whose exponent is linear; such a power times an exponential is
integrated by parts.

Exponents are machine integers of 64 bits.  The exponent `k+1` of `∫ xᵏ` and the
divisor `(k+1)²` of the second term of `∫ xᵏ·ln x` can leave their range, and
then the computation is abandoned.
-/

namespace Discharge

namespace Antiderivative

/-- The coefficient `a` of a polynomial that is `a · var`, with `a` free of the
variable. -/
def linearTerms? (var : String) : List (Monomial × Rat) → Option (List Poly)
  | [] => some []
  | (m, c) :: ts => do
    if m.count (.symbol var) ≠ 1 then none
    let rest : Monomial := ⟨m.factors.filter fun f => f.1 ≠ .symbol var, m.exp⟩
    if rest.mentions var then none
    return Poly.term rest c :: (← linearTerms? var ts)

/-- The coefficient `a` of a polynomial that is `a · var`. -/
def linearCoefficient? (p : Poly) (var : String) : Option Poly :=
  (linearTerms? var p.terms).map Poly.sum

/-- What the dependent part of a monomial is. -/
structure Shape where
  /-- The exponent of the variable. -/
  degree : Int
  /-- Is `ln` of the variable a factor? -/
  logarithm : Bool
  /-- The rate of the exponential, if there is one. -/
  rate : Option Poly

/-- The logarithm of the variable, as an atom. -/
def logOf (var : String) : Atom := .ln (.ofAtom (.symbol var))

/-- The exponent of the variable and whether its logarithm is a factor; another
factor is refused. -/
def shapeFactors (var : String) (degree : Int) (logarithm : Bool) :
    List (Atom × Int) → Outcome (Int × Bool)
  | [] => .ok (degree, logarithm)
  | (a, n) :: fs =>
    if a = .symbol var then shapeFactors var n logarithm fs
    else if a = logOf var ∧ n = 1 then shapeFactors var degree true fs
    else .error (.unsupported
      ("integrand factor " ++ (Fraction.ofAtom a).toExpr.render ++ " in " ++ var))

/-- The shape of the dependent part of a monomial. -/
def shape (m : Monomial) (var : String) : Outcome Shape := do
  let (degree, logarithm) ← shapeFactors var 0 false m.factors
  if m.exp.isZero then return ⟨degree, logarithm, none⟩
  match linearCoefficient? m.exp var with
  | some rate => return ⟨degree, logarithm, some rate⟩
  | none => throw (.unsupported ("exponential that is not linear in " ++ var))

/-- A power of the variable. -/
def powerOf (var : String) (n : Int) : Fraction :=
  .ofPoly (.term (.ofAtom (.symbol var) n) 1)

/-- The natural logarithm of the variable. -/
def lnOf (var : String) : Outcome Fraction := (Fraction.ofAtom (.symbol var)).ln

/-- `rate · var`, for a rate that is free of the variable. -/
def linearTerm (rate : Poly) (var : String) : Poly :=
  .sum (rate.terms.map fun t => .term ⟨Monomial.setCount (.symbol var) 1 t.1.factors, t.1.exp⟩ t.2)

/-- Adds the terms of integration by parts from the `j`-th on, `rounds` of them:
`(-1)ʲ · k·(k-1)⋯(k-j+1) · varᵏ⁻ʲ / rateʲ⁺¹`. -/
def byParts (rate : Fraction) (var : String) (k : Nat) (max : Nat) :
    Nat → Nat → Rat → Fraction → Outcome Fraction
  | 0, _, _, total => .ok total
  | rounds + 1, j, falling, total => do
    let divisor ← rate.powInt (j + 1) max
    let term ← (powerOf var ((k : Int) - j)).div divisor
    let total ← total.add (term.scale (if j % 2 = 0 then falling else -falling))
    byParts rate var k max rounds (j + 1) (falling * ((k : Int) - j)) total

/-- `∫ varᵏ·ln(var)` for `k ≠ -1`. -/
def powerLog (var : String) (k : Int) : Outcome Fraction := do
  let log ← lnOf var
  let n ← machineInt "add" (k + 1)
  let lifted := powerOf var n
  let first ← lifted.mul log
  let square ← machineInt "multiply" (n * n)
  (first.scale (n : Rat)⁻¹).sub (lifted.scale (square : Rat)⁻¹)

/-- `∫ varᵏ·exp(rate·var)` for a natural `k`. -/
def powerExp (rate : Poly) (var : String) (k : Nat) (max : Nat) : Outcome Fraction := do
  if max < k then
    throw (.tooLarge (var ++ "^" ++ toString k ++ " under an exponential"))
  let exponential := Fraction.ofPoly (.term (.exponential (linearTerm rate var)) 1)
  exponential.mul (← byParts (.ofPoly rate) var k max (k + 1) 0 1 .zero)

/-- An antiderivative of a shape. -/
def ofShape (s : Shape) (var : String) (max : Nat) : Outcome Fraction :=
  match s.rate, s.logarithm with
  | none, false =>
    if s.degree = -1 then lnOf var
    else do
      let n ← machineInt "add" (s.degree + 1)
      return (powerOf var n).scale (n : Rat)⁻¹
  | none, true =>
    if s.degree = -1 then do
      let log ← lnOf var
      return (← log.mul log).scale (1 / 2)
    else powerLog var s.degree
  | some rate, logarithm =>
    if !logarithm ∧ 0 ≤ s.degree then powerExp rate var s.degree.toNat max
    else .error (.unsupported ("integrand shape " ++ var ++ "^" ++ toString s.degree
      ++ " with logarithm and exponential"))

/-- Adds the antiderivatives of terms to `total`. -/
def ofTerms (var : String) (max : Nat) (total : Fraction) :
    List (Monomial × Rat) → Outcome Fraction
  | [] => .ok total
  | (m, c) :: ts => do
    let (dependent, free) := m.split var
    let s ← shape dependent var
    let piece ← ofShape s var max
    let product ← (Fraction.ofPoly (.term free c)).mul piece
    ofTerms var max (← total.add product) ts

end Antiderivative

/-- An antiderivative with respect to `var`, without a constant. -/
def Fraction.antiderivative (r : Fraction) (var : String) (max : Nat) : Outcome Fraction := do
  if r.den.mentions var then
    throw (.unsupported ("rational function of " ++ var ++ " in the denominator"))
  let total ← Antiderivative.ofTerms var max .zero r.num.terms
  total.div (.ofPoly r.den)

/-! ## Intervals -/

namespace Interval

/-- Where a bound lies relative to zero. -/
inductive Side where
  | negative
  | origin
  | positive
  deriving DecidableEq

/-- Places a finite bound. -/
def sideOfFinite (e : Expr) (max : Nat) : Outcome Side := do
  let r ← Fraction.ofExpr max e
  if r.isZero then return .origin
  let undecided := Failure.unsupported ("cannot place bound " ++ e.render ++ " relative to 0")
  if r.hasSymbols then throw undecided
  match r.approx?.filter Approx.isFinite with
  | none => throw undecided
  | some value =>
    let size := value.re.abs
    let size := if size < 1 then 1 else size
    if value.im.abs > 1e-12 * size then
      throw (.unsupported ("bound " ++ e.render ++ " is not real"))
    return if value.re < 0 then .negative else .positive

/-- Places a bound. -/
def sideOf (point : LimitPoint) (max : Nat) : Outcome Side :=
  match point with
  | .posInfinity => .ok .positive
  | .negInfinity => .ok .negative
  | .finite e => sideOfFinite e max

/-- Does the integrand have a negative power of the variable? -/
def hasPole (integrand : Fraction) (var : String) : Bool :=
  integrand.num.terms.any fun t => (t.1.split var).1.count (.symbol var) < 0

/-- Does the integrand, or its antiderivative, have a logarithm of the variable? -/
def hasLogarithm (integrand : Fraction) (var : String) : Bool :=
  integrand.num.terms.any fun t =>
    let dependent := (t.1.split var).1
    dependent.count (.symbol var) == -1 || dependent.factors.any fun f => f.1 ≠ .symbol var

/-- The interval in brackets. -/
def render (i : Interval) : String := "[" ++ i.lower.render ++ ", " ++ i.upper.render ++ "]"

/-- Refuses an interval over which the antiderivative is not valid: one that
holds a pole, or one on which a logarithm of the variable is not real. -/
def check (i : Interval) (integrand : Fraction) (var : String) (max : Nat) :
    Outcome Unit := do
  let pole := hasPole integrand var
  let logarithm := hasLogarithm integrand var
  if !pole && !logarithm then return
  let lower ← sideOf i.lower max
  let upper ← sideOf i.upper max
  let spansOrigin := lower ≠ upper || lower = .origin
  if pole && spansOrigin then
    throw (.divergent (integrand.toExpr.render ++ " has a pole at " ++ var ++ " = 0 within "
      ++ i.render))
  if logarithm && (lower = .negative || upper = .negative) then
    throw (.unsupported ("ln(" ++ var ++ ") is not real on " ++ i.render))

end Interval

end Discharge
