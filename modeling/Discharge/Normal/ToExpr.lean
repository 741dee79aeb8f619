import Discharge.Normal.Fraction

/-!
A canonical form as an expression tree.
-/

namespace Discharge

/-- A product of factors; a single factor stands for itself. -/
def Expr.ofFactors : List Expr → Expr
  | [x] => x
  | xs => .product xs

/-- A sum of terms; a single term stands for itself. -/
def Expr.ofTerms : List Expr → Expr
  | [] => .zero
  | [x] => x
  | xs => .sum xs

/-- An integer power of a tree; the exponent one is left out. -/
def Expr.raised (e : Expr) (n : Int) : Expr := if n = 1 then e else .power e (.int n)

/-- A numerator over a denominator given as a tree. -/
def Expr.overDenominator (num den : Expr) : Expr :=
  let reciprocal := Expr.power den (.int (-1))
  match num with
  | .product factors => .product (factors ++ [reciprocal])
  | .number q => if q = 1 then reciprocal else .product [.number q, reciprocal]
  | other => .product [other, reciprocal]

/-- A term: coefficient, factors and exponential.  The coefficient one is left
out unless nothing else stands there. -/
def Expr.ofTerm (coefficient : Rat) (factors exponential : List Expr) : Expr :=
  let rest := factors ++ exponential
  ofFactors (if coefficient = 1 ∧ rest ≠ [] then rest else .number coefficient :: rest)

mutual
/-- An atom as a tree. -/
def Atom.toExpr : Atom → Expr
  | .symbol s => .symbol s
  | .pi => .constant .pi
  | .imaginary => .constant .imaginary
  | .root p k =>
    if k = 2 then .apply .sqrt (Poly.toExpr p) else .power (Poly.toExpr p) (.number (mkRat 1 k))
  | .ln a => .apply .ln (Fraction.toExpr a)
  | .power a e => .power (Fraction.toExpr a) (Fraction.toExpr e)
  | .exp a => .apply .exp (Fraction.toExpr a)

/-- A polynomial as a tree. -/
def Poly.toExpr : Poly → Expr
  | ⟨ts⟩ => .ofTerms (termsToExprs ts)

/-- A fraction as a tree. -/
def Fraction.toExpr : Fraction → Expr
  | ⟨num, den⟩ =>
    if den.isOne then Poly.toExpr num else (Poly.toExpr num).overDenominator (Poly.toExpr den)

/-- The exponential of a monomial as at most one factor; `exp(1)` is e. -/
def exponentialToExprs : Poly → List Expr
  | ⟨[]⟩ => []
  | ⟨t :: ts⟩ =>
    if Poly.isOne ⟨t :: ts⟩ then [.constant .euler]
    else [.apply .exp (.ofTerms (termsToExprs (t :: ts)))]

/-- The factors of a monomial as trees. -/
def factorsToExprs : List (Atom × Int) → List Expr
  | [] => []
  | (a, n) :: fs => (Atom.toExpr a).raised n :: factorsToExprs fs

/-- The terms of a polynomial as trees. -/
def termsToExprs : List (Monomial × Rat) → List Expr
  | [] => []
  | (⟨fs, e⟩, c) :: ts => .ofTerm c (factorsToExprs fs) (exponentialToExprs e) :: termsToExprs ts
end

end Discharge
