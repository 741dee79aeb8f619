import Discharge.Normal.Basic
import Discharge.Error

/-!
Monomials and polynomials: what needs no reduction.

Sums merge two increasing lists of terms and drop what cancels.  Exponents are
machine integers of 64 bits: adding two of them is checked, and a sum out of
range is a size error.  A negative out of range abandons the computation, and so
does a negative power of zero.
-/

namespace Discharge

/-! ## Exponents -/

/-- Is the number a signed integer of 64 bits? -/
def fitsInt64 (n : Int) : Bool := -9223372036854775808 ≤ n && n ≤ 9223372036854775807

/-- The result of an operation on machine integers, which is abandoned if that is
none. -/
def machineInt (operation : String) (n : Int) : Outcome Int :=
  if fitsInt64 n then .ok n else .error (.overflow operation)

/-- A rational to an integer power. -/
def ratPow (q : Rat) (n : Int) : Outcome Rat :=
  if 0 ≤ n then .ok (Rat.pow q n.natAbs)
  else if q = 0 then .error .zeroDenominator
  else .ok (Rat.pow q n.natAbs)⁻¹

/-! ## Occurrence of symbols -/

mutual
/-- Does the symbol occur in the atom? -/
def Atom.mentions (name : String) : Atom → Bool
  | .symbol s => s == name
  | .pi | .imaginary => false
  | .root p _ => Poly.mentions name p
  | .ln a | .exp a => Fraction.mentions name a
  | .power a e => Fraction.mentions name a || Fraction.mentions name e

/-- Does the symbol occur in the monomial? -/
def Monomial.mentions (name : String) : Monomial → Bool
  | ⟨fs, e⟩ => factorsMention name fs || Poly.mentions name e

/-- Does the symbol occur in the polynomial? -/
def Poly.mentions (name : String) : Poly → Bool
  | ⟨ts⟩ => termsMention name ts

/-- Does the symbol occur in the fraction? -/
def Fraction.mentions (name : String) : Fraction → Bool
  | ⟨n, d⟩ => Poly.mentions name n || Poly.mentions name d

/-- Does the symbol occur in one of the factors? -/
def factorsMention (name : String) : List (Atom × Int) → Bool
  | [] => false
  | (a, _) :: fs => Atom.mentions name a || factorsMention name fs

/-- Does the symbol occur in one of the terms? -/
def termsMention (name : String) : List (Monomial × Rat) → Bool
  | [] => false
  | (m, _) :: ts => Monomial.mentions name m || termsMention name ts
end

mutual
/-- Does any symbol occur in the atom? -/
def Atom.hasSymbols : Atom → Bool
  | .symbol _ => true
  | .pi | .imaginary => false
  | .root p _ => Poly.hasSymbols p
  | .ln a | .exp a => Fraction.hasSymbols a
  | .power a e => Fraction.hasSymbols a || Fraction.hasSymbols e

/-- Does any symbol occur in the monomial? -/
def Monomial.hasSymbols : Monomial → Bool
  | ⟨fs, e⟩ => factorsHaveSymbols fs || Poly.hasSymbols e

/-- Does any symbol occur in the polynomial? -/
def Poly.hasSymbols : Poly → Bool
  | ⟨ts⟩ => termsHaveSymbols ts

/-- Does any symbol occur in the fraction? -/
def Fraction.hasSymbols : Fraction → Bool
  | ⟨n, d⟩ => Poly.hasSymbols n || Poly.hasSymbols d

/-- Does any symbol occur in one of the factors? -/
def factorsHaveSymbols : List (Atom × Int) → Bool
  | [] => false
  | (a, _) :: fs => Atom.hasSymbols a || factorsHaveSymbols fs

/-- Does any symbol occur in one of the terms? -/
def termsHaveSymbols : List (Monomial × Rat) → Bool
  | [] => false
  | (m, _) :: ts => Monomial.hasSymbols m || termsHaveSymbols ts
end

/-! ## Polynomials -/

namespace Poly

/-- The polynomial without terms. -/
def zero : Poly := ⟨[]⟩

/-- Is this the polynomial without terms? -/
def isZero (p : Poly) : Bool := p.terms.isEmpty

/-- The single term `coefficient · monomial`; zero has no term. -/
def term (m : Monomial) (c : Rat) : Poly := if c = 0 then zero else ⟨[(m, c)]⟩

/-- A constant polynomial. -/
def constant (c : Rat) : Poly := term ⟨[], zero⟩ c

/-- The polynomial one. -/
def one : Poly := constant 1

/-- The polynomial that is one atom. -/
def ofAtom (a : Atom) : Poly := ⟨[(⟨[(a, 1)], zero⟩, 1)]⟩

/-- Multiplies every coefficient by a rational. -/
def scale (p : Poly) (c : Rat) : Poly :=
  if c = 0 then zero else ⟨p.terms.map fun t => (t.1, t.2 * c)⟩

/-- Changes the sign of every coefficient. -/
def neg (p : Poly) : Poly := p.scale (-1)

/-- Merges the term `c · m` and the terms `ts` after it with a second list;
`rest` merges `ts` with a list. -/
def mergeTerm (m : Monomial) (c : Rat) (ts : List (Monomial × Rat))
    (rest : List (Monomial × Rat) → List (Monomial × Rat)) :
    List (Monomial × Rat) → List (Monomial × Rat)
  | [] => (m, c) :: ts
  | (n, d) :: us =>
    match Monomial.compare m n with
    | .lt => (m, c) :: rest ((n, d) :: us)
    | .gt => (n, d) :: mergeTerm m c ts rest us
    | .eq => if c + d = 0 then rest us else (m, c + d) :: rest us

/-- Merges two increasing lists of terms; terms that cancel are dropped. -/
def mergeTerms : List (Monomial × Rat) → List (Monomial × Rat) → List (Monomial × Rat)
  | [] => id
  | (m, c) :: ts => mergeTerm m c ts (mergeTerms ts)

/-- The sum of two polynomials. -/
def add (p q : Poly) : Poly := ⟨mergeTerms p.terms q.terms⟩

/-- Adds neighbours in a list of polynomials. -/
def addPairs : List Poly → List Poly
  | p :: q :: ps => p.add q :: addPairs ps
  | ps => ps

/-- Adds a list of polynomials, pairing neighbours at most `rounds` times. -/
def sumRounds : Nat → List Poly → Poly
  | 0, ps => ps.foldr add zero
  | _, [] => zero
  | _, [p] => p
  | rounds + 1, ps => sumRounds rounds (addPairs ps)

/-- The sum of a list of polynomials.  Neighbours are paired, so that many short
polynomials are added by merges of balanced length. -/
def sum (ps : List Poly) : Poly := sumRounds ps.length ps

/-- The value of a polynomial without atoms and exponentials. -/
def constant? (p : Poly) : Option Rat :=
  match p.terms with
  | [] => some 0
  | [(⟨[], ⟨[]⟩⟩, c)] => some c
  | _ => none

/-- Is this the constant one? -/
def isOne (p : Poly) : Bool := p.constant? == some 1

/-- The only term of a polynomial that has exactly one. -/
def singleTerm? (p : Poly) : Option (Monomial × Rat) :=
  match p.terms with
  | [t] => some t
  | _ => none

/-- The coefficient of the first term. -/
def leading? (p : Poly) : Option Rat := p.terms.head?.map (·.2)

/-- The greatest positive rational of which every coefficient is an integer
multiple: the divisor of the numerators over the multiple of the denominators. -/
def content (p : Poly) : Rat :=
  let numer := p.terms.foldl (fun g t => Nat.gcd g t.2.num.natAbs) 0
  let denom := p.terms.foldl (fun l t => Nat.lcm l t.2.den) 1
  if numer = 0 then 1 else mkRat numer denom

/-- The coefficient of a monomial. -/
def coefficient? (p : Poly) (m : Monomial) : Option Rat := p.terms.lookup m

/-- The polynomial without the term of a monomial. -/
def erase (p : Poly) (m : Monomial) : Poly := ⟨p.terms.filter fun t => t.1 ≠ m⟩

end Poly

/-! ## Monomials -/

namespace Monomial

/-- The monomial without factors. -/
def one : Monomial := ⟨[], .zero⟩

/-- Is this the monomial without factors? -/
def isOne (m : Monomial) : Bool := m.factors.isEmpty && m.exp.isZero

/-- A power of one atom. -/
def ofAtom (a : Atom) (n : Int) : Monomial := ⟨if n = 0 then [] else [(a, n)], .zero⟩

/-- The exponential of a polynomial. -/
def exponential (p : Poly) : Monomial := ⟨[], p⟩

/-- The exponent of an atom. -/
def count (m : Monomial) (a : Atom) : Int := (m.factors.lookup a).getD 0

/-- Sets the exponent of an atom in an increasing list of factors. -/
def setCount (a : Atom) (n : Int) : List (Atom × Int) → List (Atom × Int)
  | [] => [(a, n)]
  | (b, k) :: fs =>
    match Atom.compare a b with
    | .lt => (a, n) :: (b, k) :: fs
    | .eq => (a, n) :: fs
    | .gt => (b, k) :: setCount a n fs

/-- Merges the factor `a ^ n` and the factors `fs` after it with a second list;
`rest` merges `fs` with a list. -/
def mergeFactor (a : Atom) (n : Int) (fs : List (Atom × Int))
    (rest : List (Atom × Int) → Outcome (List (Atom × Int))) :
    List (Atom × Int) → Outcome (List (Atom × Int))
  | [] => .ok ((a, n) :: fs)
  | (b, k) :: gs =>
    match Atom.compare a b with
    | .lt => do return (a, n) :: (← rest ((b, k) :: gs))
    | .gt => do return (b, k) :: (← mergeFactor a n fs rest gs)
    | .eq =>
      if fitsInt64 (n + k) then
        if n + k = 0 then rest gs else do return (a, n + k) :: (← rest gs)
      else .error (.tooLarge "exponent overflow")

/-- Adds the exponents of two increasing lists of factors. -/
def mergeFactors : List (Atom × Int) → List (Atom × Int) → Outcome (List (Atom × Int))
  | [] => .ok
  | (a, n) :: fs => mergeFactor a n fs (mergeFactors fs)

/-- The product of two monomials, not reduced. -/
def combine (m n : Monomial) : Outcome Monomial := do
  return ⟨← mergeFactors m.factors n.factors, m.exp.add n.exp⟩

/-- Do the exponents have negatives that are machine integers? -/
def isInvertible (m : Monomial) : Bool := m.factors.all fun f => fitsInt64 (-f.2)

/-- The monomial with negated exponents. -/
def reciprocal (m : Monomial) : Monomial := ⟨m.factors.map fun f => (f.1, -f.2), m.exp.neg⟩

/-- The reciprocal, not reduced. -/
def inverse (m : Monomial) : Outcome Monomial :=
  if m.isInvertible then .ok m.reciprocal else .error (.overflow "negate")

/-- The part that depends on a symbol, and the part that does not. -/
def split (m : Monomial) (name : String) : Monomial × Monomial :=
  let (dependent, free) := m.factors.partition fun f => f.1.mentions name
  let (exponent, rest) := m.exp.terms.partition fun t => t.1.mentions name
  (⟨dependent, ⟨exponent⟩⟩, ⟨free, ⟨rest⟩⟩)

end Monomial

/-! ## Surds -/

namespace Atom

/-- Is the atom i, or the square root of a constant?  The sign of such a surd
can be flipped to remove it from a denominator. -/
def isQuadraticSurd : Atom → Bool
  | .imaginary => true
  | .root p k => k == 2 && p.constant?.isSome
  | _ => false

end Atom

namespace Poly

/-- The first quadratic surd among the factors of the terms. -/
def firstSurd? (p : Poly) : Option Atom :=
  p.terms.findSome? fun t => t.1.factors.findSome? fun f =>
    if f.1.isQuadraticSurd then some f.1 else none

/-- Flips the sign of a surd in every term. -/
def conjugate (p : Poly) (surd : Atom) : Poly :=
  ⟨p.terms.map fun t => (t.1, if t.1.count surd % 2 = 1 then -t.2 else t.2)⟩

/-- Lowers the exponents `fs` to those of one more term: an exponent becomes the
lesser of the two, an atom that is missing from either list counting as zero. -/
def lowerCounts (fs : List (Atom × Int)) (m : Monomial) : List (Atom × Int) :=
  let lowered := fs.map fun f => (f.1, min f.2 (m.count f.1))
  m.factors.foldl (fun fs f =>
    if f.2 < 0 ∧ (fs.lookup f.1).isNone then Monomial.setCount f.1 f.2 fs else fs) lowered

/-- The greatest monomial that divides every term: the least exponent of every
atom.  Surds and exponentials are left out. -/
def commonMonomial (p : Poly) : Monomial :=
  match p.terms with
  | [] => .one
  | (first, _) :: _ =>
    let fs := p.terms.foldl (fun fs t => lowerCounts fs t.1) first.factors
    ⟨fs.filter fun f => f.2 ≠ 0 && !f.1.isQuadraticSurd, .zero⟩

end Poly

end Discharge
