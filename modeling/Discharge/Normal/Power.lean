import Discharge.Normal.Fraction

/-!
Roots, powers, exponentials and logarithms of fractions.

The exponent guard `max` bounds integer exponents and the indices of roots.
-/

namespace Discharge.Fraction

/-- The principal root.  A denominator is moved into the radicand, and the
rational content of the radicand is taken out as a root of its own. -/
def root (r : Fraction) (index : Nat) : Outcome Fraction := do
  if index = 0 then throw (.divisionByZero "root of index zero")
  if index = 1 then return r
  match r.constant? with
  | some value => return ofPoly (← Poly.rationalRadical value index)
  | none =>
    let lifted ← if r.den.isOne then .ok r.num else do r.num.mul (← r.den.pow (index - 1))
    let content := lifted.content
    let outside ← Poly.rationalRadical content index
    let root ← (ofPoly outside).mul (ofAtom (.root (lifted.scale content⁻¹) index))
    if r.den.isOne then return root else root.div (ofPoly r.den)

/-- An exponent that does not fit into a machine integer. -/
def wideExponent (q : Rat) : Failure := .tooLarge ("exponent " ++ ratText q)

/-- A rational power: a root for the fractional part of the exponent, times an
integer power for its floor. -/
def powRat (r : Fraction) (q : Rat) (max : Nat) : Outcome Fraction := do
  if q.den = 1 then
    if !fitsInt64 q.num then throw (wideExponent q)
    r.powInt q.num max
  else
    let whole := q.floor
    let part := q - whole
    if max < part.den then throw (exponentError part.den max)
    if !fitsInt64 part.num then throw (wideExponent q)
    if !fitsInt64 whole then throw (wideExponent q)
    let root ← r.root part.den
    let fractional ← root.powInt part.num max
    fractional.mul (← r.powInt whole max)

/-- Is the term an integer multiple of a logarithm?  Then its argument and the
multiple. -/
def logarithm? (t : Monomial × Rat) : Option (Fraction × Int) :=
  match t with
  | (⟨[(.ln argument, 1)], ⟨[]⟩⟩, c) => if c.den = 1 then some (argument, c.num) else none
  | _ => none

/-- Multiplies `result` by the powers that integer multiples of logarithms in an
exponent stand for. -/
def takeLogarithms (max : Nat) (result : Fraction) :
    List (Fraction × Int) → Outcome Fraction
  | [] => .ok result
  | (argument, n) :: rest => do
    if !fitsInt64 n then throw (.tooLarge "logarithm multiplicity")
    let result ← result.mul (← argument.powInt n max)
    takeLogarithms max result rest

/-- The exponential.  Integer multiples of logarithms become powers; an argument
with a proper denominator is kept as an atom. -/
def exp (r : Fraction) (max : Nat) : Outcome Fraction := do
  if r.isZero then return one
  if !r.den.isOne then return ofAtom (.exp r)
  let result ← takeLogarithms max one (r.num.terms.filterMap logarithm?)
  let rest := r.num.terms.filter fun t => (logarithm? t).isNone
  result.mul (ofPoly (← (Monomial.exponential ⟨rest⟩).reduce))

/-- The logarithm of a positive constant. -/
def lnPositive (q : Rat) : Fraction := if q = 1 then zero else ofAtom (.ln (constant q))

/-- The logarithm of a constant; a negative one has the imaginary part π. -/
def lnConstant (q : Rat) : Outcome Fraction :=
  if q < 0 then (lnPositive (-q)).add (ofPoly (.term Monomial.halfTurn 1)) else .ok (lnPositive q)

/-- The logarithm of a fraction that is no single exponential. -/
def lnPlain (r : Fraction) : Outcome Fraction :=
  match r.constant? with
  | some q => lnConstant q
  | none => .ok (ofAtom (.ln r))

/-- A single term with a real exponential: what stands before the exponential,
and the exponent. -/
def realExponential? (r : Fraction) : Option (Fraction × Poly) :=
  match r.den.isOne, r.num.singleTerm? with
  | true, some (m, c) =>
    if !m.exp.isZero && m.exp.terms.all fun t => t.1.count .imaginary == 0 then
      some (ofPoly (.term ⟨m.factors, .zero⟩ c), m.exp)
    else none
  | _, _ => none

/-- The natural logarithm. -/
def ln (r : Fraction) : Outcome Fraction := do
  if r.isZero then throw (.divergent "logarithm of zero")
  match realExponential? r with
  | some (rest, exponent) => (← lnPlain rest).add (ofPoly exponent)
  | none => lnPlain r

/-- The integer that is taken out of a symbolic exponent: its content when that
is an integer, with the sign of its first coefficient. -/
def exponentUnit (p : Poly) : Int :=
  let content := p.content
  let unit := if content.den = 1 then content.num else 1
  if p.leading?.getD 1 < 0 then -unit else unit

/-- A power with a symbolic polynomial exponent.  The constant part of the
exponent is a rational power, and the unit of the rest an integer power. -/
def powPoly (r : Fraction) (exponent : Poly) (max : Nat) : Outcome Fraction := do
  let constantPart := (exponent.coefficient? .one).getD 0
  let symbolic := exponent.erase .one
  let unit := exponentUnit symbolic
  if !fitsInt64 unit then throw (.tooLarge "exponent coefficient")
  let atom := Atom.power r (ofPoly (symbolic.scale (unit : Rat)⁻¹))
  let power := ofPoly (← (Monomial.ofAtom atom unit).reduce)
  if constantPart = 0 then return power else power.mul (← r.powRat constantPart max)

/-- A single exponential without any factor: its exponent. -/
def pureExponential? (r : Fraction) : Option Poly :=
  match r.den.isOne, r.num.singleTerm? with
  | true, some (⟨[], e⟩, c) => if c = 1 then some e else none
  | _, _ => none

/-- A power with any exponent. -/
def pow (r exponent : Fraction) (max : Nat) : Outcome Fraction := do
  match exponent.constant? with
  | some q => r.powRat q max
  | none =>
    if r.isZero || r.isOne then return r
    match pureExponential? r with
    | some e => (← (ofPoly e).mul exponent).exp max
    | none =>
      if exponent.den.isOne then r.powPoly exponent.num max
      else return ofAtom (.power r exponent)

end Discharge.Fraction
