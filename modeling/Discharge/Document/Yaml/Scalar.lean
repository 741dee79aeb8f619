import Discharge.Document.Datum
import Discharge.Expr.Token

/-!
What a YAML scalar stands for.

Without quotes and tag it is null, a truth value, an integer, a floating point
number, or else its text.  Integers are decimal, or follow `0x`, `0o` or `0b`.
Digits after a leading zero are text.  An integer beyond 64 bits cannot be read
as long as it fits into 128 bits; a decimal one beyond those is a floating point
number.

Where a certain kind is asked for, only the scalars of that kind will do, and a
natural number has no minus sign.
-/

namespace Discharge

namespace Yaml

/-- The value of a digit in a base of at most sixteen. -/
def digitValue? (base : Nat) (c : Char) : Option Nat :=
  let value? :=
    if c.isDigit then some (c.toNat - '0'.toNat)
    else if 'a' ≤ c ∧ c ≤ 'f' then some (c.toNat - 'a'.toNat + 10)
    else if 'A' ≤ c ∧ c ≤ 'F' then some (c.toNat - 'A'.toNat + 10)
    else none
  value?.filter (· < base)

/-- The number written by at least one digit of a base. -/
def natural? (base : Nat) : List Char → Option Nat
  | [] => none
  | cs => cs.foldlM (fun n c => (digitValue? base c).map (base * n + ·)) 0

/-- Is this a zero followed by more digits? -/
def isPadded : List Char → Bool
  | '0' :: c :: cs => (c :: cs).all Char.isDigit
  | _ => false

/-- The magnitude of an integer without sign. -/
def magnitude? : List Char → Option Nat
  | '0' :: 'x' :: cs => natural? 16 cs
  | '0' :: 'o' :: cs => natural? 8 cs
  | '0' :: 'b' :: cs => natural? 2 cs
  | cs => if isPadded cs then none else natural? 10 cs

/-- The natural number a scalar stands for, with or without a plus sign. -/
def unsigned? : List Char → Option Nat
  | '+' :: cs => magnitude? cs
  | cs => magnitude? cs

/-- The integer a scalar stands for, as far as it fits into 128 bits. -/
def integer? : List Char → Option Datum
  | '-' :: cs => do
    let n ← magnitude? cs
    if n ≤ Nat.pow 2 63 then some (.integer (-n))
    else if n ≤ Nat.pow 2 127 then some .unreadable
    else none
  | cs => do
    let n ← unsigned? cs
    if n < Nat.pow 2 64 then some (.integer n)
    else if n < Nat.pow 2 128 then some .unreadable
    else none

/-- The number nearest to `digits · 10 ^ exponent`, if it is finite.  An exponent
far out of range is not worked out. -/
def nearest? (digits : Nat) (exponent : Int) : Option Float :=
  let leading : Int := exponent + (Nat.toDigits 10 digits).length
  if digits = 0 ∨ leading < -400 then some 0.0
  else if 400 < leading then none
  else
    let x :=
      if 0 ≤ exponent then Binary64.ofRat ((digits * Nat.pow 10 exponent.toNat : Nat) : Rat)
      else Binary64.ofRat (mkRat digits (Nat.pow 10 (-exponent).toNat))
    if x.isInf then none else some x

/-- The exponent after its mark: an optional sign and digits. -/
def exponent? : List Char → Option Int
  | '-' :: cs => (natural? 10 cs).map fun n => -(n : Int)
  | '+' :: cs => (natural? 10 cs).map fun n => (n : Int)
  | cs => (natural? 10 cs).map fun n => (n : Int)

/-- A number without sign: digits with at most one point, and possibly an
exponent. -/
def unsignedFloat? (cs : List Char) : Option Float := do
  let isMark (c : Char) : Bool := c == 'e' || c == 'E'
  let mantissa := cs.takeWhile fun c => !isMark c
  let exponent ← match cs.dropWhile fun c => !isMark c with
    | [] => some 0
    | _ :: rest => exponent? rest
  let whole := mantissa.takeWhile Char.isDigit
  let fraction := (mantissa.dropWhile Char.isDigit).drop 1
  let digits := whole ++ fraction
  if !digits.all Char.isDigit || digits.isEmpty
      || !((mantissa.dropWhile Char.isDigit).head?.all (· == '.')) then none
  else nearest? (Token.digitsValue digits) (exponent - fraction.length)

/-- The floating point number a scalar stands for. -/
def float? (s : String) : Option Float :=
  match s with
  | ".inf" | ".Inf" | ".INF" | "+.inf" | "+.Inf" | "+.INF" => some (1.0 / 0.0)
  | "-.inf" | "-.Inf" | "-.INF" => some (-1.0 / 0.0)
  | ".nan" | ".NaN" | ".NAN" => some (0.0 / 0.0)
  | _ => match s.toList with
    | '-' :: cs => (unsignedFloat? cs).map fun x => -x
    | '+' :: cs => unsignedFloat? cs
    | cs => unsignedFloat? cs

/-- Is this a zero followed by more digits, with or without a sign? -/
def isPaddedNumber : List Char → Bool
  | '-' :: cs => isPadded cs
  | '+' :: cs => isPadded cs
  | cs => isPadded cs

/-- Does the text stand for null? -/
def isNull (s : String) : Bool := ["null", "Null", "NULL", "~"].contains s

/-- The truth value a text stands for. -/
def bool? : String → Option Bool
  | "true" | "True" | "TRUE" => some true
  | "false" | "False" | "FALSE" => some false
  | _ => none

/-- What an unquoted scalar without a tag stands for. -/
def resolve (s : String) : Datum :=
  if s.isEmpty || isNull s then .null
  else match bool? s with
    | some b => .bool b
    | none =>
      match integer? s.toList with
      | some d => d
      | none =>
        if isPaddedNumber s.toList then .text s
        else match float? s with
          | some x => .float x
          | none => .text s

/-- The full tag of a kind of scalars. -/
def kindTag (kind : String) : String := "tag:yaml.org,2002:" ++ kind

end Yaml

namespace Scalar

/-- Is nothing at all written here? -/
def isNothing (s : Scalar) : Bool := s.text.isEmpty && s.style == .plain

/-- Can the scalar be read as one of a kind?  A tag has to name the kind only
where the scalar is written as literal lines. -/
def mayBe (kind : String) (s : Scalar) : Bool :=
  match s.style with
  | .plain => true
  | .literal => s.tag == some (Yaml.kindTag kind)
  | .quoted => false

/-- The scalar as a truth value. -/
def bool? (s : Scalar) : Option Bool := if s.mayBe "bool" then Yaml.bool? s.text else none

/-- The scalar as a natural number. -/
def natural? (s : Scalar) : Option Nat :=
  if s.mayBe "int" then Yaml.unsigned? s.text.toList else none

/-- The name in a tag that belongs to the document itself. -/
def localTag? (s : Scalar) : Option String :=
  match s.tag.map String.toList with
  | some ('!' :: name) => some (String.ofList name)
  | _ => none

/-- What the scalar stands for where any kind of value will do: what its tag says,
and without a tag what its text says. -/
def meaning (s : Scalar) : Datum :=
  match s.tag with
  | none => if s.style = .plain then Yaml.resolve s.text else .text s.text
  | some tag =>
    if s.localTag?.isSome then .unreadable
    else if tag = Yaml.kindTag "bool" then
      match Yaml.bool? s.text with
      | some b => .bool b
      | none => .unreadable
    else if tag = Yaml.kindTag "int" then (Yaml.integer? s.text.toList).getD .unreadable
    else if tag = Yaml.kindTag "float" then
      match Yaml.float? s.text with
      | some x => .float x
      | none => .unreadable
    else if tag = Yaml.kindTag "null" then if Yaml.isNull s.text then .null else .unreadable
    else .text s.text

end Scalar

end Discharge
