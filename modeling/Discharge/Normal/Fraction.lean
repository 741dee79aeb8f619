import Discharge.Normal.Reduction
import Discharge.Expr.Printer

/-!
Arithmetic of fractions.

`Fraction.make` brings a quotient to canonical form: quadratic surds are removed
from the denominator by multiplying with conjugates, the common monomial of the
denominator is divided out of both sides, a denominator of one term is divided
out altogether, and otherwise the first coefficient of the denominator is made
one.  A numerator that is a rational multiple of the denominator gives a
constant.  Common factors of several terms are not looked for.
-/

namespace Discharge.Fraction

/-- How many surds may be removed from one denominator. -/
def maxRounds : Nat := 16

/-- A polynomial over one. -/
def ofPoly (p : Poly) : Fraction := ⟨p, .one⟩

/-- The fraction zero. -/
def zero : Fraction := ofPoly .zero

/-- The fraction one. -/
def one : Fraction := ofPoly .one

/-- A constant fraction. -/
def constant (q : Rat) : Fraction := ofPoly (.constant q)

/-- The fraction that is one atom. -/
def ofAtom (a : Atom) : Fraction := ofPoly (.ofAtom a)

/-- Does the numerator have no term? -/
def isZero (r : Fraction) : Bool := r.num.isZero

/-- The value of a constant. -/
def constant? (r : Fraction) : Option Rat := if r.den.isOne then r.num.constant? else none

/-- Is this the constant one? -/
def isOne (r : Fraction) : Bool := r.constant? == some 1

/-- What a denominator with a surd is multiplied by: the surd itself when every
term has it once, and otherwise the conjugate. -/
def conjugator (den : Poly) (surd : Atom) : Poly :=
  if den.terms.all fun t => t.1.count surd == 1 then .ofAtom surd else den.conjugate surd

/-- The denominator is zero. -/
def zeroDenominator : Failure := .divisionByZero "denominator simplifies to zero"

/-- Removes surds from the denominator, at most `rounds` times. -/
def rationalise : Nat → Poly → Poly → Outcome (Poly × Poly)
  | rounds, num, den =>
    match den.firstSurd? with
    | none => .ok (num, den)
    | some surd =>
      match rounds with
      | 0 => .error (.tooLarge "denominator has too many radicals")
      | rounds + 1 => do
        let factor := conjugator den surd
        let num ← num.mul factor
        let den ← den.mul factor
        if den.isZero then throw zeroDenominator
        rationalise rounds num den

/-- Divides both sides by the common monomial of the denominator. -/
def cancelMonomial (num den : Poly) : Outcome (Poly × Poly) := do
  let common := den.commonMonomial
  if common.isOne then return (num, den)
  let inverse ← common.inverse
  return (← num.shift inverse, ← den.shift inverse)

/-- Makes the first coefficient of the denominator one, and recognises a
numerator that is a multiple of the denominator. -/
def monic (num den : Poly) : Fraction :=
  let scale := (den.leading?.getD 1)⁻¹
  let num := num.scale scale
  let den := den.scale scale
  match num.leading? with
  | some ratio =>
    if num.terms.length = den.terms.length ∧ num = den.scale ratio then constant ratio
    else ⟨num, den⟩
  | none => ⟨num, den⟩

/-- The canonical form of a quotient. -/
def make (num den : Poly) : Outcome Fraction := do
  if den.isZero then throw zeroDenominator
  if num.isZero then return zero
  let (num, den) ← rationalise maxRounds num den
  let (num, den) ← cancelMonomial num den
  match den.singleTerm? with
  | some (m, c) => return ofPoly ((← num.shift (← m.inverse)).scale c⁻¹)
  | none => return monic num den

/-- The sum. -/
def add (r s : Fraction) : Outcome Fraction := do
  if r.den = s.den then make (r.num.add s.num) r.den
  else
    let left ← r.num.mul s.den
    let right ← s.num.mul r.den
    make (left.add right) (← r.den.mul s.den)

/-- The negative. -/
def neg (r : Fraction) : Fraction := ⟨r.num.neg, r.den⟩

/-- The difference. -/
def sub (r s : Fraction) : Outcome Fraction := r.add s.neg

/-- The product. -/
def mul (r s : Fraction) : Outcome Fraction := do
  let num ← r.num.mul s.num
  make num (← r.den.mul s.den)

/-- A rational multiple. -/
def scale (r : Fraction) (q : Rat) : Fraction :=
  if q = 0 then zero else ⟨r.num.scale q, r.den⟩

/-- The reciprocal. -/
def inverse (r : Fraction) : Outcome Fraction :=
  if r.isZero then .error (.divisionByZero "reciprocal of zero") else make r.den r.num

/-- The quotient. -/
def div (r s : Fraction) : Outcome Fraction := do
  if s.isZero then throw (.divisionByZero "division by an expression equal to zero")
  let num ← r.num.mul s.den
  make num (← r.den.mul s.num)

/-- An integer exponent is beyond the guard. -/
def exponentError (n : Int) (max : Nat) : Failure :=
  .tooLarge ("exponent " ++ toString n ++ " exceeds " ++ toString max)

/-- An integer power; the exponent is guarded by `max`. -/
def powInt (r : Fraction) (n : Int) (max : Nat) : Outcome Fraction := do
  if max < n.natAbs then throw (exponentError n max)
  let base ← if n < 0 then r.inverse else .ok r
  squaring mul one base n.natAbs

end Discharge.Fraction
