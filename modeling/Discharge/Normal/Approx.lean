import Discharge.Normal.Fraction
import Discharge.Decimal.Binary64

/-!
Approximate complex values of canonical forms without symbols.

They rank growth rates and place bounds relative to zero; no exact decision
depends on them.
-/

namespace Discharge

/-- An approximate complex number. -/
structure Approx where
  re : Float
  im : Float

namespace Approx

/-- The number zero. -/
def zero : Approx := ⟨0, 0⟩

/-- The number one. -/
def one : Approx := ⟨1, 0⟩

/-- A real number. -/
def real (x : Float) : Approx := ⟨x, 0⟩

/-- The circle constant. -/
def pi : Float := 3.141592653589793

/-- The sum. -/
def add (x y : Approx) : Approx := ⟨x.re + y.re, x.im + y.im⟩

/-- The product. -/
def mul (x y : Approx) : Approx := ⟨x.re * y.re - x.im * y.im, x.re * y.im + x.im * y.re⟩

/-- A real multiple. -/
def scale (x : Approx) (factor : Float) : Approx := ⟨x.re * factor, x.im * factor⟩

/-- The quotient; none when the divisor is zero. -/
def div? (x y : Approx) : Option Approx :=
  let norm := y.re * y.re + y.im * y.im
  if norm == 0 then none
  else some ⟨(x.re * y.re + x.im * y.im) / norm, (x.im * y.re - x.re * y.im) / norm⟩

/-- The exponential. -/
def exp (x : Approx) : Approx :=
  let magnitude := x.re.exp
  ⟨magnitude * x.im.cos, magnitude * x.im.sin⟩

/-- The absolute value. -/
def modulus (x : Approx) : Float := Binary64.modulus x.re x.im

/-- The principal logarithm; none at zero. -/
def ln? (x : Approx) : Option Approx :=
  if x.modulus == 0 then none else some ⟨x.modulus.log, Float.atan2 x.im x.re⟩

/-- Multiplies `re + i·im` by `x` as often as told.  The parts of the result are
kept apart, so that a long product takes no memory. -/
def repeated (x : Approx) : Nat → Float → Float → Approx
  | 0, re, im => ⟨re, im⟩
  | n + 1, re, im => repeated x n (re * x.re - im * x.im) (re * x.im + im * x.re)

/-- An integer power; none for the reciprocal of zero. -/
def powInt? (x : Approx) (n : Int) : Option Approx :=
  let power := repeated x n.natAbs 1 0
  if n < 0 then one.div? power else some power

/-- A complex power; every power of zero is zero. -/
def pow? (x y : Approx) : Option Approx :=
  if x.re == 0 && x.im == 0 then some zero else x.ln?.map fun log => (log.mul y).exp

/-- Are both parts finite? -/
def isFinite (x : Approx) : Bool := x.re.isFinite && x.im.isFinite

end Approx

mutual
/-- The value of an atom; none when it holds a symbol or has no value. -/
def Atom.approx? : Atom → Option Approx
  | .symbol _ => none
  | .pi => some (.real Approx.pi)
  | .imaginary => some ⟨0, 1⟩
  | .root p k => do (← Poly.approx? p).pow? (.real (1 / Binary64.ofInt k))
  | .ln a => do (← Fraction.approx? a).ln?
  | .power a e => do (← Fraction.approx? a).pow? (← Fraction.approx? e)
  | .exp a => (Fraction.approx? a).map Approx.exp

/-- The value of a polynomial. -/
def Poly.approx? : Poly → Option Approx
  | ⟨ts⟩ => termsApprox? .zero ts

/-- The value of a fraction; none when the denominator is zero. -/
def Fraction.approx? : Fraction → Option Approx
  | ⟨num, den⟩ => do (← Poly.approx? num).div? (← Poly.approx? den)

/-- The value of the exponential of a polynomial; without terms it is one. -/
def exponentialApprox? : Poly → Option Approx
  | ⟨[]⟩ => some .one
  | ⟨t :: ts⟩ => (termsApprox? .zero (t :: ts)).map Approx.exp

/-- Multiplies the values of factors to `value`. -/
def factorsApprox? (value : Approx) : List (Atom × Int) → Option Approx
  | [] => some value
  | (a, n) :: fs => do factorsApprox? (value.mul (← (← Atom.approx? a).powInt? n)) fs

/-- Adds the values of terms to `total`. -/
def termsApprox? (total : Approx) : List (Monomial × Rat) → Option Approx
  | [] => some total
  | (⟨fs, e⟩, c) :: ts => do
    let value ← factorsApprox? (← exponentialApprox? e) fs
    termsApprox? (total.add (value.scale (Binary64.ofRat c))) ts
end

end Discharge
