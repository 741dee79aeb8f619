/-!
Binary floating point numbers of 64 bits and the rationals they stand for.

`Binary64.ofRat` rounds a rational to the nearest representable number, a half
going to the even neighbour; what is too large becomes infinite and what is too
small a zero of the same sign.  `Binary64.toRat?` is the exact value of a finite
number.  `Binary64.modulus` is the distance of a point from the origin, to within
a unit in the last place.
-/

namespace Discharge.Binary64

/-- The quotient of two naturals to the nearest natural, a half going to the even one. -/
def roundDiv (n d : Nat) : Nat :=
  let q := n / d
  let r := n % d
  if 2 * r < d then q
  else if d < 2 * r then q + 1
  else if q % 2 = 0 then q else q + 1

/-- `n / 2 ^ e` as a fraction of naturals, for an exponent of either sign. -/
def scaled (n d : Nat) (e : Int) : Nat × Nat :=
  if 0 ≤ e then (n, d * Nat.pow 2 e.toNat) else (n * Nat.pow 2 (-e).toNat, d)

/-- The greatest `e` with `2 ^ e ≤ n / d`, for positive `n` and `d`. -/
def floorLog2 (n d : Nat) : Int :=
  let e : Int := (Nat.log2 n : Int) - Nat.log2 d
  let (top, bottom) := scaled n d e
  if bottom ≤ top then e else e - 1

/-- The bits of an infinite magnitude. -/
def infinityBits : Nat := 0x7FF * Nat.pow 2 52

/-- The bits of the number nearest to the positive fraction `n / d`. -/
def magnitudeBits (n d : Nat) : Nat :=
  if n = 0 then 0
  else
    let unit := max (floorLog2 n d - 52) (-1074)
    if 971 < unit then infinityBits
    else
      let (top, bottom) := scaled n d unit
      min (((unit + 1074).toNat) * Nat.pow 2 52 + roundDiv top bottom) infinityBits

/-- The number nearest to a rational. -/
def ofRat (q : Rat) : Float :=
  let bits := magnitudeBits q.num.natAbs q.den
  Float.ofBits (UInt64.ofNat (if q < 0 then Nat.pow 2 63 + bits else bits))

/-- The number nearest to an integer. -/
def ofInt (n : Int) : Float := ofRat n

/-- Is the sign bit set? -/
def isNegative (x : Float) : Bool := decide (Nat.pow 2 63 ≤ x.toBits.toNat)

/-- The significand and the exponent of the unit in the last place. -/
def parts (x : Float) : Nat × Int :=
  let bits := x.toBits.toNat % Nat.pow 2 63
  let exponent : Nat := bits / Nat.pow 2 52
  let fraction : Nat := bits % Nat.pow 2 52
  if exponent = 0 then (fraction, -1074) else (Nat.pow 2 52 + fraction, (exponent : Int) - 1075)

/-- The exact value of a magnitude of `m` units of `2 ^ e`. -/
def unitsValue (m : Nat) (e : Int) : Rat :=
  if 0 ≤ e then ((m * Nat.pow 2 e.toNat : Nat) : Rat) else mkRat m (Nat.pow 2 (-e).toNat)

/-- The exact value of a finite number. -/
def toRat? (x : Float) : Option Rat :=
  if x.toBits.toNat % Nat.pow 2 63 < infinityBits then
    let (m, e) := parts x
    some (if isNegative x then -unitsValue m e else unitsValue m e)
  else none

/-! ## Distance from the origin -/

/-- Two to an integer power, for the exponent of a normal number. -/
def twoPow (e : Int) : Float := Float.ofBits (UInt64.ofNat ((e + 1023).toNat * Nat.pow 2 52))

/-- How far `h²` is above `a² + b²`, for `h` close to the root and `b ≤ a`.  The
difference of `h` and one of the sides is exact, and the squares themselves are
never subtracted, so hardly anything is lost. -/
def squaresExcess (a b h : Float) : Float :=
  if h ≤ 2 * b then
    let d := h - b
    a * (2 * d - a) + (d - 2 * (a - b)) * d
  else
    let d := h - a
    2 * d * (a - 2 * b) + ((4 * d - b) * b + d * d)

/-- The root of `a² + b²` for `b ≤ a`, neither of them so large or so small that a
square leaves the range.  The rounded root is corrected by one step of Newton's
method. -/
def hypotenuse (a b : Float) : Float :=
  let h := (a * a + b * b).sqrt
  h - squaresExcess a b h / (2 * h)

/-- The distance of a point from the origin.  It is infinite when one of the
coordinates is.  The lesser coordinate adds nothing but its own size when it is
below half a unit in the last place of the greater one; coordinates far from one
are scaled by a power of two. -/
def modulus (x y : Float) : Float :=
  if x.isInf || y.isInf then 1.0 / 0.0
  else
    let big := if x.abs < y.abs then y.abs else x.abs
    let small := if x.abs < y.abs then x.abs else y.abs
    let unit := twoPow (-600)
    if big > twoPow 511 then
      if small ≤ big * twoPow (-54) then big + small
      else hypotenuse (big * unit) (small * unit) / unit
    else if small < twoPow (-459) then
      if big ≥ small / twoPow (-54) then big + small
      else hypotenuse (big / unit) (small / unit) * unit
    else if small ≤ big * twoPow (-54) then big + small
    else hypotenuse big small

end Discharge.Binary64
