import Discharge.Normal.Power

/-!
The canonical form of an expression tree.

Trigonometric and hyperbolic functions are written with exponentials.
-/

namespace Discharge.Fraction

/-- One half. -/
def half : Fraction := constant (1 / 2)

/-- The imaginary unit. -/
def imaginary : Fraction := ofAtom .imaginary

/-- The sine, from the exponentials of `±i·x`. -/
def sin (x : Fraction) (max : Nat) : Outcome Fraction := do
  let turned ← imaginary.mul x
  let up ← turned.exp max
  let diff ← up.sub (← turned.neg.exp max)
  (← diff.mul imaginary.neg).mul half

/-- The cosine, from the exponentials of `±i·x`. -/
def cos (x : Fraction) (max : Nat) : Outcome Fraction := do
  let turned ← imaginary.mul x
  let up ← turned.exp max
  (← up.add (← turned.neg.exp max)).mul half

/-- A function applied to a canonical form. -/
def apply (f : Function) (x : Fraction) (max : Nat) : Outcome Fraction :=
  match f with
  | .exp => x.exp max
  | .ln => x.ln
  | .sqrt => x.root 2
  | .sin => x.sin max
  | .cos => x.cos max
  | .tan => do
    let s ← x.sin max
    let c ← x.cos max
    if c.isZero then throw (.divisionByZero "tangent at an odd multiple of pi/2")
    s.div c
  | .sinh => do
    let up ← x.exp max
    (← up.sub (← x.neg.exp max)).mul half
  | .cosh => do
    let up ← x.exp max
    (← up.add (← x.neg.exp max)).mul half

mutual
/-- The canonical form of an expression; `max` guards exponents. -/
def ofExpr (max : Nat) : Expr → Outcome Fraction
  | .number q => .ok (constant q)
  | .symbol s => .ok (ofAtom (.symbol s))
  | .constant .pi => .ok (ofAtom .pi)
  | .constant .imaginary => .ok imaginary
  | .constant .euler => .ok (ofPoly (.term (.exponential .one) 1))
  | .sum xs => ofSum max zero xs
  | .product xs => ofProduct max one xs
  | .power b e => do
    let base ← ofExpr max b
    let exponent ← ofExpr max e
    base.pow exponent max
  | .apply f x => do (← ofExpr max x).apply f max

/-- Adds the canonical forms of a list of expressions to `total`. -/
def ofSum (max : Nat) (total : Fraction) : List Expr → Outcome Fraction
  | [] => .ok total
  | x :: xs => do ofSum max (← total.add (← ofExpr max x)) xs

/-- Multiplies `total` by the canonical forms of a list of expressions. -/
def ofProduct (max : Nat) (total : Fraction) : List Expr → Outcome Fraction
  | [] => .ok total
  | x :: xs => do ofProduct max (← total.mul (← ofExpr max x)) xs
end

end Discharge.Fraction
