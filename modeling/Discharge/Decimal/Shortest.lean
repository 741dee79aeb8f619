import Discharge.Decimal.Binary64

/-!
The fewest decimal digits that read back as the same binary number.

The reals that round to a finite number form an interval around it, whose ends
belong to it when the significand is even.  For one digit, two digits and so on
the value's two neighbours on that decimal grid are tested; the first grid with
a hit gives the digits, the nearer neighbour winning.  Where both are equally
near, the notation in which the number is written decides.
-/

namespace Discharge.Decimal

/-- A positive decimal `digits · 10 ^ exponent`. -/
structure Scientific where
  digits : Nat
  exponent : Int
  deriving DecidableEq

/-- Which of two equally near decimals is taken. -/
inductive Tie where
  /-- The one whose last digit is even. -/
  | even
  /-- The one that is further from zero. -/
  | away
  deriving DecidableEq

/-- Ten to an integer power. -/
def tenPow (e : Int) : Rat :=
  if 0 ≤ e then ((Nat.pow 10 e.toNat : Nat) : Rat) else mkRat 1 (Nat.pow 10 (-e).toNat)

/-- The interval of reals that round to `m` units of `2 ^ e`: its lower and
upper end.  Below a power of two the neighbour is half as far away. -/
def roundingInterval (m : Nat) (e : Int) : Rat × Rat :=
  let half := Binary64.unitsValue 1 (e - 1)
  let value := Binary64.unitsValue m e
  let below := if m = Nat.pow 2 52 ∧ -1074 < e then half / 2 else half
  (value - below, value + half)

/-- The number of decimal digits before the point of a positive rational, not
positive for a value below one tenth: the least `k` with `q < 10 ^ k`, found by
correcting an estimate from the binary size. -/
def decimalSize (q : Rat) : Int :=
  let estimate := Binary64.floorLog2 q.num.natAbs q.den * 30103 / 100000
  if q < tenPow (estimate - 1) then estimate - 1
  else if q < tenPow estimate then estimate
  else if q < tenPow (estimate + 1) then estimate + 1
  else estimate + 2

/-- The better of the two neighbours of `value` on the grid of `unit`, among
those that lie in the interval. -/
def gridHit (tie : Tie) (value unit low high : Rat) (closed : Bool) : Option Nat :=
  let inside (q : Rat) : Bool := if closed then low ≤ q && q ≤ high else low < q && q < high
  let down := (value / unit).floor.toNat
  let up := down + 1
  let lowGap := value - down * unit
  let highGap := up * unit - value
  match inside (down * unit) && down ≠ 0, inside (up * unit) with
  | true, true =>
    if lowGap < highGap then some down
    else if highGap < lowGap then some up
    else some (if tie = .even ∧ down % 2 = 0 then down else up)
  | true, false => some down
  | false, true => some up
  | false, false => none

/-- Tries grids of more and more digits, `tries` of them. -/
def searchGrid (tie : Tie) (value low high : Rat) (closed : Bool) (size : Int) (count : Nat) :
    Nat → Scientific
  | 0 => ⟨(value / tenPow (size - count)).floor.toNat, size - count⟩
  | tries + 1 =>
    match gridHit tie value (tenPow (size - count)) low high closed with
    | some n => ⟨n, size - count⟩
    | none => searchGrid tie value low high closed size (count + 1) tries

/-- Moves trailing zeros of the digits into the exponent; `fuel` bounds their number. -/
def stripZeros : Nat → Scientific → Scientific
  | 0, s => s
  | fuel + 1, s =>
    if s.digits ≠ 0 ∧ s.digits % 10 = 0 then stripZeros fuel ⟨s.digits / 10, s.exponent + 1⟩ else s

/-- The shortest decimal of a finite magnitude; zero is `0 · 10 ^ 0`. -/
def shortest (tie : Tie) (x : Float) : Scientific :=
  let (m, e) := Binary64.parts x
  if m = 0 then ⟨0, 0⟩
  else
    let value := Binary64.unitsValue m e
    let (low, high) := roundingInterval m e
    stripZeros 20 (searchGrid tie value low high (m % 2 == 0) (decimalSize value) 1 17)

/-- A natural as exactly its decimal digits. -/
def digitsText (n : Nat) : String := toString n

/-- `count` zeros. -/
def zeros (count : Nat) : String := String.ofList (List.replicate count '0')

/-- Positional notation; `point` is appended to a number without a fraction. -/
def positional (s : Scientific) (point : String) : String :=
  let text := digitsText s.digits
  if 0 ≤ s.exponent then text ++ zeros s.exponent.toNat ++ point
  else
    let places := (-s.exponent).toNat
    if places < text.length then
      let whole := text.toList.take (text.length - places)
      let fraction := text.toList.drop (text.length - places)
      String.ofList whole ++ "." ++ String.ofList fraction
    else "0." ++ zeros (places - text.length) ++ text

/-- The exponent of the leading digit. -/
def leadingExponent (s : Scientific) : Int := s.exponent + (digitsText s.digits).length - 1

/-- One digit, the others after a point, and a signed exponent. -/
def exponential (s : Scientific) : String :=
  let text := (digitsText s.digits).toList
  let mantissa := match text with
    | [] => ""
    | [d] => String.singleton d
    | d :: ds => String.singleton d ++ "." ++ String.ofList ds
  let e := leadingExponent s
  mantissa ++ "e" ++ (if e < 0 then "-" else "+") ++ toString e.natAbs

/-- The text of a number without any exponent; a whole number has no point, and of
two equally near decimals the one further from zero is written. -/
def plainText (x : Float) : String :=
  if x.isNaN then "NaN"
  else
    let sign := if Binary64.isNegative x then "-" else ""
    if x.isInf then sign ++ "inf" else sign ++ positional (shortest .away x) ""

/-- Rounds a finite number to `places` decimals, an exact half going to the even digit. -/
def fixedText (places : Nat) (x : Float) : String :=
  match Binary64.toRat? x with
  | none => plainText x
  | some q =>
    let scaled := q * (Nat.pow 10 places : Nat)
    let n := Binary64.roundDiv scaled.num.natAbs scaled.den
    let sign := if Binary64.isNegative x then "-" else ""
    let whole := toString (n / Nat.pow 10 places)
    let fraction := toString (n % Nat.pow 10 places)
    if places = 0 then sign ++ whole
    else sign ++ whole ++ "." ++ zeros (places - fraction.length) ++ fraction

end Discharge.Decimal
