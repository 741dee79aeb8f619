import Discharge.Normal.Poly

/-!
Exact roots of integers and exact roots of unity.

`integerRoot n k` takes out of the `k`-th root of `n` what trial division by
numbers up to a bound finds.  A square root keeps the left-over primes as
separate radicands, a higher root keeps one combined radicand; a cofactor that
the division did not split is kept whole, unless it is a perfect power.
-/

namespace Discharge

namespace Radical

/-- The greatest divisor that trial division uses. -/
def divisionLimit : Nat := 100000

/-- Divides out a factor as often as it goes, at most `fuel` times: the cofactor
and the multiplicity.  The multiplicity has no bound here, where a counter of 32
bits would do for every number of less than `2 ^ 32` bits. -/
def divideOut (d : Nat) : Nat → Nat → Nat × Nat
  | 0, n => (n, 0)
  | fuel + 1, n =>
    if n % d = 0 then
      let (rest, k) := divideOut d fuel (n / d)
      (rest, k + 1)
    else (n, 0)

/-- The greatest `r` below `2 ^ bits` above `r₀` with `r ^ k ≤ n`, one bit after
the other. -/
def rootBits (n k : Nat) : Nat → Nat → Nat
  | 0, r => r
  | bits + 1, r =>
    let candidate := r + Nat.pow 2 bits
    if Nat.pow candidate k ≤ n then rootBits n k bits candidate else rootBits n k bits r

/-- The floor of the `k`-th root. -/
def floorRoot (n k : Nat) : Nat :=
  if n.log2 < k then min n 1 else rootBits n k (n.log2 / k + 1) 0

/-- A root being split: the factor outside, the radicands of a square root, and
the combined radicand of a higher one. -/
structure Split where
  outside : Nat
  inside : List Nat
  combined : Nat

/-- Takes a prime power `p ^ multiplicity` into account. -/
def Split.takePrime (s : Split) (index p multiplicity : Nat) : Split :=
  let outside := s.outside * Nat.pow p (multiplicity / index)
  let leftover := multiplicity % index
  if leftover = 0 then { s with outside }
  else if index = 2 then { s with outside, inside := s.inside ++ [p] }
  else { s with outside, combined := s.combined * Nat.pow p leftover }

/-- Trial division by `d` and the candidates after it, at most `fuel` of them:
the split so far and the cofactor. -/
def trialDivision (index : Nat) : Nat → Nat → Nat → Split → Split × Nat
  | 0, _, rest, s => (s, rest)
  | fuel + 1, d, rest, s =>
    if d ≤ divisionLimit ∧ d * d ≤ rest then
      let (rest', multiplicity) := divideOut d (rest.log2 + 1) rest
      let s' := if multiplicity = 0 then s else s.takePrime index d multiplicity
      trialDivision index fuel (if d = 2 then 3 else d + 2) rest' s'
    else (s, rest)

/-- Takes the cofactor into account that trial division left. -/
def Split.takeCofactor (s : Split) (index rest : Nat) : Split :=
  if rest ≤ 1 then s
  else
    let r := floorRoot rest index
    if Nat.pow r index = rest then { s with outside := s.outside * r }
    else if index = 2 then { s with inside := s.inside ++ [rest] }
    else { s with combined := s.combined * rest }

/-- Splits the root of a positive integer into a factor and the radicands left. -/
def integerRoot (n index : Nat) : Nat × List Nat :=
  let (s, rest) := trialDivision index divisionLimit 2 n ⟨1, [], 1⟩
  let s := s.takeCofactor index rest
  (s.outside, if 1 < s.combined then s.inside ++ [s.combined] else s.inside)

end Radical

namespace Poly

/-- The root of a positive integer, as a product of reduced radicals. -/
def integerRadical (n index : Nat) : Poly :=
  let (outside, inside) := Radical.integerRoot n index
  let factors := inside.foldl
    (fun fs r => Monomial.setCount (.root (constant (r : Nat)) index) 1 fs) []
  term ⟨factors, zero⟩ (outside : Nat)

/-- Half of the square root of an integer. -/
def halfSurd (n : Nat) : Poly := term (.ofAtom (.root (constant (n : Nat)) 2) 1) (1 / 2)

/-- The cosine and the sine of a multiple of a twelfth of a half turn, in the
first quarter turn and with an exact value. -/
def quarterAngle? : Nat → Option (Poly × Poly)
  | 0 => some (one, zero)
  | 2 => some (halfSurd 3, constant (1 / 2))
  | 3 => some (halfSurd 2, halfSurd 2)
  | 4 => some (constant (1 / 2), halfSurd 3)
  | _ => none

/-- Multiplies every term by i. -/
def timesImaginary (p : Poly) : Poly :=
  ⟨p.terms.map fun t => (⟨Monomial.setCount .imaginary 1 t.1.factors, t.1.exp⟩, t.2)⟩

/-- `exp(i·π·angle)` for an angle that is a multiple of 1/6 or of 1/4. -/
def unitRoot? (angle : Rat) : Option Poly :=
  let twelfths := (angle - 2 * (angle / 2).floor) * 12
  if twelfths.den ≠ 1 then none
  else
    let step := twelfths.num.toNat
    (quarterAngle? (step % 6)).map fun (cos, sin) =>
      let (re, im) := match step / 6 with
        | 0 => (cos, sin)
        | 1 => (sin.neg, cos)
        | 2 => (cos.neg, sin.neg)
        | _ => (sin, cos.neg)
      re.add im.timesImaginary

end Poly

end Discharge
