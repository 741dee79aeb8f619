import Discharge.Calculus.Antiderivative
import Discharge.Expr.Derivative

/-!
Limits of canonical forms.

At a finite point numerator and denominator are evaluated by substitution, after
negative powers of the variable have been cleared; where both vanish, both are
differentiated and the limit of the quotient is taken, a bounded number of
times.

At infinity the dominant terms of both sides are compared by their growth: the
rate of the exponential first, then the degree, then the power of the logarithm.
Rates are floating point numbers and are compared up to a tolerance.  The limit
at minus infinity is that at plus infinity after a change of sign of the
variable.
-/

namespace Discharge

/-- The guards of symbolic computations. -/
structure Guards where
  /-- The greatest number of rounds of L'Hôpital's rule. -/
  rounds : Nat := 6
  /-- The greatest exponent that is multiplied out. -/
  maxPower : Nat := 64
  deriving DecidableEq

namespace Limit

/-! ## Finite points -/

/-- A polynomial at a value of the variable. -/
def evaluate (p : Poly) (var : String) (point : Expr) (max : Nat) : Outcome Fraction :=
  Fraction.ofExpr max ((Fraction.ofPoly p).toExpr.substitute var point)

/-- The derivative of a polynomial. -/
def differentiate (p : Poly) (var : String) (max : Nat) : Outcome Fraction :=
  Fraction.ofExpr max ((Fraction.ofPoly p).toExpr.derivative var)

/-- The least exponent of the variable on both sides, or zero if that is less. -/
def lowestPower (r : Fraction) (var : String) : Int :=
  (r.num.terms ++ r.den.terms).foldl (fun low t => min low (t.1.count (.symbol var))) 0

/-- The limit at a finite point; `rounds` of L'Hôpital's rule are left. -/
def finite (guards : Guards) (var : String) (point : Expr) :
    Nat → Fraction → Outcome Fraction
  | rounds, r => do
    if !r.mentions var then return r
    let lift := Monomial.ofAtom (.symbol var) (← machineInt "negate" (-lowestPower r var))
    let num ← r.num.shift lift
    let den ← r.den.shift lift
    let top ← evaluate num var point guards.maxPower
    let bottom ← evaluate den var point guards.maxPower
    if !bottom.isZero then top.div bottom
    else if !top.isZero then
      throw (.divergent (top.toExpr.render ++ " / 0 as " ++ var ++ " -> " ++ point.render))
    else
      match rounds with
      | 0 => throw (.indeterminate ("0/0 as " ++ var ++ " -> " ++ point.render ++ " after "
          ++ toString guards.rounds ++ " rounds of L'Hopital"))
      | rounds + 1 => do
        let top ← differentiate num var guards.maxPower
        let bottom ← differentiate den var guards.maxPower
        finite guards var point rounds (← top.div bottom)

/-! ## Growth -/

/-- How a term grows as the variable tends to infinity: like
`exp(rate·x)·x^degree·ln(x)^log`. -/
structure Growth where
  rate : Float
  degree : Rat
  log : Rat

namespace Growth

/-- Rates that differ by no more are taken as equal. -/
def tolerance : Float := 1e-12

/-- The growth of a constant. -/
def flat : Growth := ⟨0, 0, 0⟩

/-- Which of two terms grows faster. -/
def compare (g h : Growth) : Ordering :=
  if (g.rate - h.rate).abs > tolerance then
    if g.rate < h.rate then .lt else if h.rate < g.rate then .gt else .eq
  else (compareRat g.degree h.degree).then (compareRat g.log h.log)

/-- The growth of a product. -/
def plus (g h : Growth) : Growth := ⟨g.rate + h.rate, g.degree + h.degree, g.log + h.log⟩

/-- The growth of a quotient. -/
def minus (g h : Growth) : Growth := ⟨g.rate - h.rate, g.degree - h.degree, g.log - h.log⟩

/-- The growth of a rational power. -/
def scaled (g : Growth) (q : Rat) : Growth :=
  ⟨g.rate * Binary64.ofRat q, g.degree * q, g.log * q⟩

/-- Raises the rate. -/
def addRate (g : Growth) (x : Float) : Growth := { g with rate := g.rate + x }

/-- Raises the degree. -/
def addDegree (g : Growth) (q : Rat) : Growth := { g with degree := g.degree + q }

/-- Raises the power of the logarithm. -/
def addLog (g : Growth) (q : Rat) : Growth := { g with log := g.log + q }

end Growth

/-- The terms of a polynomial with one dependent part: that part, the polynomial
it is multiplied by, and its growth. -/
structure Group where
  key : Monomial
  coefficient : Poly
  growth : Outcome Growth

/-- A group whose growth is known. -/
structure Dominant where
  key : Monomial
  coefficient : Poly
  growth : Growth

/-- Adds a group to groups in increasing order of their keys. -/
def insertGroup (g : Group) : List Group → List Group
  | [] => [g]
  | h :: hs =>
    match Monomial.compare g.key h.key with
    | .lt => g :: h :: hs
    | .eq => { h with coefficient := h.coefficient.add g.coefficient } :: hs
    | .gt => h :: insertGroup g hs

/-- The fastest growing group among those after `best`, and whether another one
grows as fast. -/
def fastest (best : Option Dominant) (tied : Bool) :
    List Group → Outcome (Option Dominant × Bool)
  | [] => .ok (best, tied)
  | g :: gs => do
    let growth ← g.growth
    let order : Ordering := match best with
      | none => .gt
      | some b => growth.compare b.growth
    match order with
    | .gt => fastest (some ⟨g.key, g.coefficient, growth⟩) false gs
    | .eq => fastest best true gs
    | .lt => fastest best tied gs

/-- The dominant group; two groups of equal growth are not decided. -/
def dominantOf (var : String) (groups : List Group) : Outcome (Option Dominant) := do
  let (best, tied) ← fastest none false (groups.foldl (fun gs g => insertGroup g gs) [])
  if tied then throw (.indeterminate ("competing terms of equal growth in " ++ var))
  return best

/-- The approximate value of a coefficient, which has to be a finite number. -/
def numericValue (p : Poly) (what : String) : Outcome Approx :=
  match p.approx?.filter Approx.isFinite with
  | some value => .ok value
  | none => .error (.unsupported ("non-numeric " ++ what))

/-- The growth of an exponential: the real part of its rate. -/
def exponentialGrowth (var : String) (exponent : Poly) : Outcome Growth := do
  if exponent.isZero then return .flat
  match Antiderivative.linearCoefficient? exponent var with
  | none => throw (.unsupported ("exponential that is not linear in " ++ var))
  | some rate => return Growth.flat.addRate (← numericValue rate "exponential rate").re

/-- The growth of a power of a constant base, whose exponent has to be linear. -/
def powerGrowth (var : String) (base exponent : Fraction) (n : Int) : Outcome Float := do
  match Antiderivative.linearCoefficient? exponent.num var with
  | none => throw (.unsupported ("power with exponent not linear in " ++ var))
  | some slope =>
    let slope ← numericValue slope "power exponent"
    match (base.approx?.map Approx.modulus).filter fun x => x > 0 && x.isFinite with
    | none => throw (.unsupported "non-numeric power base")
    | some magnitude => return Binary64.ofInt n * slope.re * magnitude.log

/-- The growth of a logarithm from that of its argument. -/
def logGrowth (var : String) (inner growth : Growth) (n : Int) : Outcome Growth :=
  if inner.rate > Growth.tolerance then .ok (growth.addDegree n)
  else if inner.rate.abs ≤ Growth.tolerance && 0 < inner.degree then .ok (growth.addLog n)
  else .error (.unsupported ("logarithm of a bounded function of " ++ var))

/-- The growth of a quotient from the dominant groups of both sides. -/
def quotientGrowth (top bottom : Option Dominant) : Outcome Growth :=
  match top, bottom with
  | none, _ => .error (.unsupported "logarithm of zero")
  | some _, none => .error (.divisionByZero "denominator")
  | some t, some b => .ok (t.growth.minus b.growth)

mutual
/-- Adds the growth of `a ^ n` to `growth`. -/
def atomGrowth (var : String) (growth : Growth) (n : Int) : Atom → Outcome Growth
  | .symbol s =>
    if s = var then .ok (growth.addDegree n)
    else .error (.unsupported ("growth of " ++ s ++ " in " ++ var))
  | .ln ⟨num, den⟩ => do
    let top ← dominant var num
    let inner ← match top with
      | none => .error (.unsupported "logarithm of zero")
      | some _ => do quotientGrowth top (← dominant var den)
    logGrowth var inner growth n
  | .root p k => do
    let inner := ((← dominant var p).map Dominant.growth).getD .flat
    return growth.plus (inner.scaled ((n : Rat) / (k : Int)))
  | .power base exponent =>
    if !base.mentions var ∧ exponent.den.isOne then do
      return growth.addRate (← powerGrowth var base exponent n)
    else .error (.unsupported
      ("growth of " ++ (Fraction.ofAtom (.power base exponent)).toExpr.render ++ " in " ++ var))
  | a => .error (.unsupported
      ("growth of " ++ (Fraction.ofAtom a).toExpr.render ++ " in " ++ var))

/-- Adds the growth of the factors that depend on the variable to `growth`. -/
def factorsGrowth (var : String) (growth : Growth) :
    List (Atom × Int) → Outcome Growth
  | [] => .ok growth
  | (a, n) :: fs => do
    if a.mentions var then factorsGrowth var (← atomGrowth var growth n a) fs
    else factorsGrowth var growth fs

/-- The terms as groups. -/
def groups (var : String) : List (Monomial × Rat) → List Group
  | [] => []
  | (⟨fs, e⟩, c) :: ts =>
    let (dependent, free) := (Monomial.mk fs e).split var
    let growth := do factorsGrowth var (← exponentialGrowth var dependent.exp) fs
    ⟨dependent, .term free c, growth⟩ :: groups var ts

/-- The dominant group of a polynomial; zero has none. -/
def dominant (var : String) : Poly → Outcome (Option Dominant)
  | ⟨ts⟩ => dominantOf var (groups var ts)
end

/-! ## Infinity -/

/-- The limit at plus infinity; errors speak of `shown` approaching `point`. -/
def infinite (r : Fraction) (var : String) (shown : Fraction) (point : LimitPoint) :
    Outcome Fraction := do
  if !r.mentions var then return r
  match ← dominant var r.num with
  | none => return .zero
  | some top =>
    match ← dominant var r.den with
    | none => throw (.divisionByZero "denominator at infinity")
    | some bottom =>
      match top.growth.compare bottom.growth with
      | .lt => return .zero
      | .gt => throw (.divergent (shown.toExpr.render ++ " grows without bound as " ++ var ++ " -> "
          ++ point.render))
      | .eq =>
        if top.key = bottom.key then Fraction.make top.coefficient bottom.coefficient
        else throw (.indeterminate (shown.toExpr.render
          ++ " oscillates or has no dominant term as " ++ var ++ " -> " ++ point.render))

end Limit

/-- The limit of a canonical form as `var` approaches `point`. -/
def Fraction.limit (r : Fraction) (var : String) (point : LimitPoint) (guards : Guards) :
    Outcome Fraction := do
  if !r.mentions var then return r
  match point with
  | .finite e => Limit.finite guards var e guards.rounds r
  | .posInfinity => Limit.infinite r var r point
  | .negInfinity =>
    let flipped := r.toExpr.substitute var (-Expr.symbol var)
    Limit.infinite (← Fraction.ofExpr guards.maxPower flipped) var r point

end Discharge
