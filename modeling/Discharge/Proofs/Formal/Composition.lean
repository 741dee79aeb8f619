import Discharge.Oracle
import Discharge.Proofs.Formal.Exponentials

/-! The composition law of exponentials. The product of two exponentials and the
exponential of the sum have the same formal value at the same angle, if integer
multiples of logarithms add up and the same angle is kept. So their difference is
the empty polynomial over a denominator. -/

namespace Discharge

open Monomial (halfTurn)
open Fraction (logarithm?)
open Discharge.Poly (keptAngle TameAngle)

namespace Poly

variable {max : Nat} {p : Poly}

end Poly

namespace Fraction

variable {max : Nat} {a b : Expr} {p q : Poly}

end Fraction

variable {R : Set (ℕ × ℕ)} {S : Finset Atom} {max : Nat} {a b : Expr} {p q : Poly}

/-- What is taken out of the exponent of a sum has values, if what is taken out of the
summands has. -/
theorem Poly.Resolved.add (first : p.Resolved R S) (second : q.Resolved R S)
    (logarithms : (p.add q).logarithms = p.logarithms + q.logarithms)
    (tame : TameAngle R (p.add q).angle) : (p.add q).Resolved R S where
  arguments r occurs := by
    rw [logarithms] at occurs
    exact (Finset.mem_union.mp (Finsupp.support_add occurs)).elim (first.arguments r)
      (second.arguments r)
  inverses r negative := by
    rw [logarithms, Finsupp.add_apply] at negative
    by_cases left : p.logarithms r < 0
    · exact first.inverses r left
    · exact second.inverses r (by omega)
  inside := Poly.every_iff.mpr
    ((Poly.every_iff.mp first.inside).add (Poly.every_iff.mp second.inside))
  angle := tame

-- Of the angles 1/6 and 1/4 the values are exact, and of their sum it is not.
example :
    let turn (q : Rat) := Expr.product [.number q, .constant .imaginary, .constant .pi]
    (Oracle.exact {}).isZero (.apply .exp (turn (1 / 6)) * .apply .exp (turn (1 / 4)) -
      .apply .exp (.sum [turn (1 / 6), turn (1 / 4)])) = .ok false := by
  decide +kernel

end Discharge
