import Discharge.Normal.Radical

/-!
Products of polynomials, and the reduction that keeps them canonical.

A product of two monomials is brought back to canonical form: the powers of i
and of roots of constants are reduced, a root of a proper polynomial whose
exponent has reached its index is multiplied out, and `exp(i·π·q)` is evaluated
at the angles with an exact value.  Multiplying out is a product of polynomials
again, whose monomials need the same reduction.

The recursion is on the nesting of roots in roots.  `reduceWith lower` reduces a
monomial, using `lower` for the monomials of the products that it has to
multiply out; those contain only roots from inside the radicands, besides roots
that stay below their index.  `reduceAt n` is right for a monomial whose roots
are nested at most `n` deep, and `reduce` measures the monomial first.
-/

namespace Discharge

/-! ## Guards -/

/-- The greatest number of terms that a product may have. -/
def maxTerms : Nat := 4096

/-- The greatest power to which a radicand may be multiplied out. -/
def maxRadicalPower : Int := 4294967295

/-! ## Powers by repeated squaring -/

/-- Multiplies `result` by `base` to the power `n`, squaring the base. -/
def squaring {ε α : Type} (mul : α → α → Except ε α) (result base : α) (n : Nat) : Except ε α :=
  if n = 0 then .ok result
  else do
    let result ← if n % 2 = 1 then mul result base else .ok result
    if n < 2 then return result
    let base ← mul base base
    squaring mul result base (n / 2)
termination_by n

/-! ## Products -/

namespace Poly

/-- The products of one term with every term of a list, reduced by `lower`. -/
def timesTerm (lower : Monomial → Outcome Poly) (m : Monomial) (c : Rat) :
    List (Monomial × Rat) → Outcome (List Poly)
  | [] => .ok []
  | (n, d) :: ts => do
    let product ← lower (← m.combine n)
    return product.scale (c * d) :: (← timesTerm lower m c ts)

/-- The products of every term of one list with every term of another. -/
def timesTerms (lower : Monomial → Outcome Poly) (us : List (Monomial × Rat)) :
    List (Monomial × Rat) → Outcome (List Poly)
  | [] => .ok []
  | (m, c) :: ts => do
    let row ← timesTerm lower m c us
    return row ++ (← timesTerms lower us ts)

/-- The product of two polynomials, whose monomials `lower` reduces.  The number
of products and the number of terms of the result are guarded. -/
def mulWith (lower : Monomial → Outcome Poly) (p q : Poly) :
    Outcome Poly := do
  if maxTerms * 4 < p.terms.length * q.terms.length then
    throw (.tooLarge ("product of " ++ toString p.terms.length ++ " and "
      ++ toString q.terms.length ++ " terms"))
  let product := sum (← timesTerms lower q.terms p.terms)
  if maxTerms < product.terms.length then
    throw (.tooLarge (toString product.terms.length ++ " terms after expansion"))
  return product

/-- A power of a polynomial, whose monomials `lower` reduces. -/
def powWith (lower : Monomial → Outcome Poly) (p : Poly) (n : Nat) :
    Outcome Poly :=
  squaring (mulWith lower) one p n

end Poly

/-! ## Reduction -/

namespace Monomial

/-- What a power of i or of the root of a constant comes to: a rational, and the
exponent that is left.  Other atoms are left as they are. -/
def settleFactor (a : Atom) (n : Int) : Outcome (Rat × Int) :=
  match a with
  | .imaginary =>
    if n % 4 = 0 then .ok (1, 0)
    else if n % 4 = 1 then .ok (1, 1)
    else if n % 4 = 2 then .ok (-1, 0)
    else .ok (-1, 1)
  | .root p k =>
    match p.constant? with
    | some value => do return (← ratPow value (n / k), n % k)
    | none => .ok (1, n)
  | _ => .ok (1, n)

/-- Settles every factor: a rational, and the factors left. -/
def settleFactors : List (Atom × Int) → Outcome (Rat × List (Atom × Int))
  | [] => .ok (1, [])
  | (a, n) :: fs => do
    let (c, n') ← settleFactor a n
    let (d, gs) ← settleFactors fs
    return (c * d, if n' = 0 then gs else (a, n') :: gs)

/-- Reduces the powers of i and of the roots of constants, and nothing else. -/
def settle (m : Monomial) : Outcome Poly := do
  let (c, fs) ← settleFactors m.factors
  return Poly.term ⟨fs, m.exp⟩ c

/-- The radicand and the power to which it has to be multiplied out, when the
exponent of the root of a proper polynomial has reached its index. -/
def excess? (a : Atom) (n : Int) : Option (Poly × Int) :=
  match a with
  | .root p k => if p.constant?.isNone ∧ (k : Int) ≤ n then some (p, n.tdiv k) else none
  | _ => none

/-- The exponents of roots of proper polynomials below their index. -/
def dropExcess : List (Atom × Int) → List (Atom × Int)
  | [] => []
  | (a, n) :: fs =>
    match a, excess? a n with
    | .root _ k, some _ => if n.tmod k = 0 then dropExcess fs else (a, n.tmod k) :: dropExcess fs
    | _, _ => (a, n) :: dropExcess fs

/-- The powers of radicands that have to be multiplied out, in order. -/
def excesses (lower : Monomial → Outcome Poly) :
    List (Atom × Int) → Outcome (List Poly)
  | [] => .ok []
  | (a, n) :: fs =>
    match excess? a n with
    | none => excesses lower fs
    | some (p, whole) =>
      if maxRadicalPower < whole then .error (.tooLarge "radical power")
      else do
        let power ← p.powWith lower whole.toNat
        return power :: (← excesses lower fs)

/-- `i·π`, of which an exponential is evaluated at exact angles. -/
def halfTurn : Monomial := ⟨[(.pi, 1), (.imaginary, 1)], .zero⟩

/-- Takes `exp(i·π·q)` with an exact value out of an exponential: the exponent
left and the value. -/
def takeTurn (exponent : Poly) : Poly × List Poly :=
  match (exponent.coefficient? halfTurn).bind Poly.unitRoot? with
  | some value => (exponent.erase halfTurn, [value])
  | none => (exponent, [])

/-- Reduces a monomial, using `lower` for the monomials of the products to be
multiplied out.  The roots of zero come first among its factors, so that a
negative power of one is met before anything is multiplied out. -/
def reduceWith (lower : Monomial → Outcome Poly) (m : Monomial) :
    Outcome Poly := do
  let (c, fs) ← settleFactors (dropExcess m.factors)
  let powers ← excesses lower m.factors
  let (exponent, turn) := takeTurn m.exp
  (powers ++ turn).foldlM (Poly.mulWith lower) (Poly.term ⟨fs, exponent⟩ c)

/-- Reduces a monomial whose roots are nested at most `n` deep. -/
def reduceAt : Nat → Monomial → Outcome Poly
  | 0 => reduceWith settle
  | n + 1 => reduceWith (reduceAt n)

end Monomial

mutual
/-- How deep roots of proper polynomials are nested in the atom. -/
def Atom.rootDepth : Atom → Nat
  | .root p _ => if p.constant?.isSome then 0 else Poly.rootDepth p + 1
  | _ => 0

/-- How deep roots are nested in the factors of the monomial. -/
def Monomial.rootDepth : Monomial → Nat
  | ⟨fs, _⟩ => factorsRootDepth fs

/-- How deep roots are nested in the terms of the polynomial. -/
def Poly.rootDepth : Poly → Nat
  | ⟨ts⟩ => termsRootDepth ts

/-- How deep roots are nested in the factors. -/
def factorsRootDepth : List (Atom × Int) → Nat
  | [] => 0
  | (a, _) :: fs => max (Atom.rootDepth a) (factorsRootDepth fs)

/-- How deep roots are nested in the terms. -/
def termsRootDepth : List (Monomial × Rat) → Nat
  | [] => 0
  | (m, _) :: ts => max (Monomial.rootDepth m) (termsRootDepth ts)
end

/-- The canonical form of a monomial. -/
def Monomial.reduce (m : Monomial) : Outcome Poly := m.reduceAt m.rootDepth

namespace Poly

/-- The product of two polynomials. -/
def mul (p q : Poly) : Outcome Poly := mulWith Monomial.reduce p q

/-- A power of a polynomial. -/
def pow (p : Poly) (n : Nat) : Outcome Poly := powWith Monomial.reduce p n

/-- The products of the terms of a list with a monomial, reduced. -/
def shiftTerms (by_ : Monomial) : List (Monomial × Rat) → Outcome (List Poly)
  | [] => .ok []
  | (m, c) :: ts => do
    let product ← (← m.combine by_).reduce
    return product.scale c :: (← shiftTerms by_ ts)

/-- Multiplies every term by a monomial. -/
def shift (p : Poly) (by_ : Monomial) : Outcome Poly := do
  return sum (← shiftTerms by_ p.terms)

/-- The principal root of a positive rational. -/
def positiveRadical (q : Rat) (index : Nat) : Poly :=
  (integerRadical (q.num.natAbs * Nat.pow q.den (index - 1)) index).scale (mkRat 1 q.den)

/-- The principal root of a rational.  A negative one has a real root of odd
index and an imaginary square root; its other even roots are not supported. -/
def rationalRadical (q : Rat) (index : Nat) : Outcome Poly :=
  if q = 0 then .ok zero
  else if q < 0 then
    if index = 2 then (positiveRadical (-q) index).mul (ofAtom .imaginary)
    else if index % 2 = 1 then .ok (positiveRadical (-q) index).neg
    else .error (.unsupported ("even root of index " ++ toString index ++ " of a negative number"))
  else .ok (positiveRadical q index)

end Poly

end Discharge
