import Discharge.Document.Datum
import Discharge.Expr.Token
import Discharge.Text.Remaining

/-!
Reading JSON text.

The grammar is the strict one: no comments, no trailing commas, no leading
zeros, no raw control characters in strings.  A number without fraction and
exponent is an integer as long as it fits into 64 bits, signed or unsigned;
everything else is a floating point number, computed from the leading digits
that fit into 64 bits by one multiplication or division by a power of ten.
-/

namespace Discharge.JsonReader

/-- The blanks between tokens. -/
def isBlank (c : Char) : Bool := c == ' ' || c == '\n' || c == '\t' || c == '\r'

/-- The first character that is no blank, and what follows it. -/
def next : (cs : List Char) → Option (Char × Shorter cs)
  | [] => none
  | c :: cs =>
    if isBlank c then (next cs).map fun (d, ⟨rest, h⟩) => (d, ⟨rest, Nat.lt_succ_of_lt h⟩)
    else some (c, ⟨cs, Nat.lt_succ_self _⟩)

/-! ## Strings -/

/-- One unit of a quoted string: a character, or the 16-bit unit of an escape. -/
inductive Piece where
  | char (c : Char)
  | unit (n : Nat)

/-- The value of a hexadecimal digit. -/
def hexValue? (c : Char) : Option Nat :=
  if '0' ≤ c ∧ c ≤ '9' then some (c.toNat - '0'.toNat)
  else if 'a' ≤ c ∧ c ≤ 'f' then some (c.toNat - 'a'.toNat + 10)
  else if 'A' ≤ c ∧ c ≤ 'F' then some (c.toNat - 'A'.toNat + 10)
  else none

/-- The number of four hexadecimal digits. -/
def hex4? (a b c d : Char) : Option Nat := do
  return (((← hexValue? a) * 16 + (← hexValue? b)) * 16 + (← hexValue? c)) * 16 + (← hexValue? d)

/-- The character a one-letter escape stands for. -/
def escaped? : Char → Option Char
  | '"' => some '"'
  | '\\' => some '\\'
  | '/' => some '/'
  | 'b' => some '\x08'
  | 'f' => some '\x0c'
  | 'n' => some '\n'
  | 'r' => some '\r'
  | 't' => some '\t'
  | _ => none

/-- The units of a string up to its closing quote, and what follows the quote. -/
def stringBody : (cs : List Char) → Option (List Piece × Shorter cs)
  | [] => none
  | '"' :: rest => some ([], ⟨rest, Nat.lt_succ_self _⟩)
  | '\\' :: 'u' :: a :: b :: c :: d :: rest => do
    let n ← hex4? a b c d
    let (pieces, ⟨rest', h⟩) ← stringBody rest
    return (.unit n :: pieces, ⟨rest', by simp only [List.length_cons]; omega⟩)
  | '\\' :: e :: rest => do
    let c ← escaped? e
    let (pieces, ⟨rest', h⟩) ← stringBody rest
    return (.char c :: pieces, ⟨rest', by simp only [List.length_cons]; omega⟩)
  | c :: rest =>
    if c.toNat < 0x20 ∨ c = '\\' then none
    else do
      let (pieces, ⟨rest', h⟩) ← stringBody rest
      return (.char c :: pieces, ⟨rest', Nat.lt_succ_of_lt h⟩)

/-- Is this the first unit of a surrogate pair? -/
def isHighSurrogate (n : Nat) : Bool := 0xD800 ≤ n && n < 0xDC00

/-- Is this the second unit of a surrogate pair? -/
def isLowSurrogate (n : Nat) : Bool := 0xDC00 ≤ n && n < 0xE000

/-- Joins the units of a string to characters; half a surrogate pair is none. -/
def joinPieces : List Piece → Option (List Char)
  | [] => some []
  | .char c :: rest => (joinPieces rest).map (c :: ·)
  | .unit n :: .unit m :: rest =>
    if isHighSurrogate n then
      if isLowSurrogate m then
        (joinPieces rest).map (Char.ofNat (0x10000 + (n - 0xD800) * 0x400 + (m - 0xDC00)) :: ·)
      else none
    else if isLowSurrogate n then none
    else (joinPieces (.unit m :: rest)).map (Char.ofNat n :: ·)
  | .unit n :: rest =>
    if isHighSurrogate n || isLowSurrogate n then none
    else (joinPieces rest).map (Char.ofNat n :: ·)

/-- The scalar of a quoted string. -/
def ofPieces (pieces : List Piece) : Datum :=
  match joinPieces pieces with
  | some cs => .text (String.ofList cs)
  | none => .unreadable

/-! ## Numbers -/

/-- The parts of a number literal. -/
structure Literal where
  negative : Bool
  whole : List Char
  fraction : Option (List Char)
  /-- Is the exponent negative, and its digits. -/
  exponent : Option (Bool × List Char)

/-- The greatest number of 64 bits. -/
def maxWord : Nat := Nat.pow 2 64 - 1

/-- Adds digits to a number as long as it fits into 64 bits.  Gives the number,
how many digits were added, and the digits left. -/
def accumulate (n : Nat) (count : Nat) : List Char → Nat × Nat × List Char
  | [] => (n, count, [])
  | c :: cs =>
    let next := 10 * n + (c.toNat - '0'.toNat)
    if maxWord < next then (n, count, c :: cs) else accumulate next (count + 1) cs

/-- Divides by ten to the power `k`, in steps of at most 308. -/
def scaleDown (x : Float) (k : Nat) : Float :=
  if k ≤ 308 then x / Binary64.ofInt (Nat.pow 10 k)
  else if x == 0 then x
  else scaleDown (x / Binary64.ofInt (Nat.pow 10 308)) (k - 308)
termination_by k

/-- `significand · 10 ^ exponent`; none when it is not finite. -/
def scale? (significand : Nat) (exponent : Int) : Option Float :=
  let x := Binary64.ofInt significand
  if exponent < 0 then some (scaleDown x exponent.natAbs)
  else if exponent ≤ 308 then
    let y := x * Binary64.ofInt (Nat.pow 10 exponent.toNat)
    if y.isInf then none else some y
  else if x == 0 then some x
  else none

/-- The floating point number of a literal; none when it is too large. -/
def Literal.float? (l : Literal) : Option Float :=
  let (n, _, dropped) := accumulate 0 0 l.whole
  let fraction := l.fraction.getD []
  let (significand, places) :=
    let (m, count, _) := accumulate n 0 fraction
    (m, count)
  let start : Int := (dropped.length : Int) - places
  let magnitude? := match l.exponent with
    | none => scale? significand start
    | some (down, digits) =>
      let e : Int := Token.digitsValue digits
      if 2147483647 < e then
        if significand ≠ 0 ∧ !down then none else some 0.0
      else scale? significand (if down then start - e else start + e)
  magnitude?.map fun x => if l.negative then -x else x

/-- The scalar of a number literal. -/
def Literal.value (l : Literal) : Datum :=
  let float := match l.float? with
    | some x => Datum.float x
    | none => .unreadable
  match l.fraction, l.exponent with
  | none, none =>
    let n := Token.digitsValue l.whole
    if l.negative then
      if 0 < n ∧ n ≤ Nat.pow 2 63 then .integer (-n) else float
    else if n ≤ maxWord then .integer n else float
  | _, _ => float

/-- The digits a text starts with, at least one, and what follows. -/
def digits1 (cs : List Char) : Option (List Char × Shorter cs) :=
  match cs with
  | [] => none
  | c :: cs =>
    if c.isDigit then
      some (c :: cs.takeWhile Char.isDigit,
        ⟨cs.dropWhile Char.isDigit, Nat.lt_succ_of_le (List.dropWhile_sublist _).length_le⟩)
    else none

/-- The fraction of a number, if a point follows. -/
def fraction (cs : List Char) : Option (Option (List Char) × Remaining cs) :=
  match cs with
  | '.' :: cs => do
    let (ds, ⟨rest, h⟩) ← digits1 cs
    return (some ds, ⟨rest, Nat.le_of_lt (Nat.lt_succ_of_lt h)⟩)
  | cs => some (none, ⟨cs, Nat.le_refl _⟩)

/-- The sign of an exponent. -/
def exponentSign (cs : List Char) : Bool × Remaining cs :=
  match cs with
  | '+' :: cs => (false, ⟨cs, Nat.le_succ _⟩)
  | '-' :: cs => (true, ⟨cs, Nat.le_succ _⟩)
  | cs => (false, ⟨cs, Nat.le_refl _⟩)

/-- The exponent of a number, if its mark follows. -/
def exponent (cs : List Char) : Option (Option (Bool × List Char) × Remaining cs) :=
  match cs with
  | [] => some (none, ⟨[], Nat.le_refl _⟩)
  | c :: cs =>
    if c = 'e' ∨ c = 'E' then do
      let (down, ⟨cs', h⟩) := exponentSign cs
      let (ds, ⟨rest, h'⟩) ← digits1 cs'
      return (some (down, ds), ⟨rest, by simp only [List.length_cons]; omega⟩)
    else some (none, ⟨c :: cs, Nat.le_refl _⟩)

/-- A number without its sign. -/
def unsignedNumber (negative : Bool) (cs : List Char) : Option (Datum × Shorter cs) := do
  let (whole, ⟨cs1, h1⟩) ← digits1 cs
  if whole.head? = some '0' ∧ whole.length ≠ 1 then none
  let (fraction, ⟨cs2, h2⟩) ← fraction cs1
  let (exponent, ⟨cs3, h3⟩) ← exponent cs2
  return (Literal.value ⟨negative, whole, fraction, exponent⟩, ⟨cs3, by omega⟩)

/-- A number whose first character is `c`. -/
def number (c : Char) (cs : List Char) : Option (Datum × Remaining cs) :=
  if c = '-' then do
    let (d, ⟨rest, h⟩) ← unsignedNumber true cs
    return (d, ⟨rest, Nat.le_of_lt h⟩)
  else do
    let (d, ⟨rest, h⟩) ← unsignedNumber false (c :: cs)
    return (d, ⟨rest, Nat.le_of_lt_succ h⟩)

/-! ## Values -/

/-- Reads the given characters, which stand for a scalar. -/
def word (expected : List Char) (d : Datum) (cs : List Char) : Option (Datum × Remaining cs) :=
  if expected.isPrefixOf cs then
    some (d, ⟨cs.drop expected.length, by simp only [List.length_drop]; omega⟩)
  else none

mutual
/-- Reads a value, skipping blanks before it. -/
def value (cs : List Char) : Option (Datum × Shorter cs) := do
  let (c, ⟨rest, h⟩) ← next cs
  match c with
  | '"' => do
    let (pieces, ⟨rest', h'⟩) ← stringBody rest
    return (ofPieces pieces, ⟨rest', Nat.lt_trans h' h⟩)
  | '[' => do
    let (ds, ⟨rest', h'⟩) ← items true rest
    return (.sequence ds, ⟨rest', Nat.lt_trans h' h⟩)
  | '\x7b' => do
    let (entries, ⟨rest', h'⟩) ← members true rest
    return (.mapping entries, ⟨rest', Nat.lt_trans h' h⟩)
  | 'n' => do
    let (d, ⟨rest', h'⟩) ← word ['u', 'l', 'l'] .null rest
    return (d, ⟨rest', Nat.lt_of_le_of_lt h' h⟩)
  | 't' => do
    let (d, ⟨rest', h'⟩) ← word ['r', 'u', 'e'] (.bool true) rest
    return (d, ⟨rest', Nat.lt_of_le_of_lt h' h⟩)
  | 'f' => do
    let (d, ⟨rest', h'⟩) ← word ['a', 'l', 's', 'e'] (.bool false) rest
    return (d, ⟨rest', Nat.lt_of_le_of_lt h' h⟩)
  | c => do
    let (d, ⟨rest', h'⟩) ← number c rest
    return (d, ⟨rest', Nat.lt_of_le_of_lt h' h⟩)
termination_by 2 * cs.length

/-- Reads the items of an array up to its closing bracket; the `first` one has no
comma before it. -/
def items (first : Bool) (cs : List Char) : Option (List Datum × Shorter cs) := do
  let (c, ⟨rest, h⟩) ← next cs
  if c = ']' then return ([], ⟨rest, h⟩)
  else if first then
    let (d, ⟨cs1, h1⟩) ← value cs
    let (ds, ⟨cs2, h2⟩) ← items false cs1
    return (d :: ds, ⟨cs2, Nat.lt_trans h2 h1⟩)
  else if c = ',' then
    let (d, ⟨cs1, h1⟩) ← value rest
    let (ds, ⟨cs2, h2⟩) ← items false cs1
    return (d :: ds, ⟨cs2, Nat.lt_trans h2 (Nat.lt_trans h1 h)⟩)
  else none
termination_by 2 * cs.length + 1

/-- Reads the members of an object up to its closing brace; the `first` one has
no comma before it. -/
def members (first : Bool) (cs : List Char) : Option (List (Datum × Datum) × Shorter cs) := do
  let (c, ⟨rest, h⟩) ← next cs
  if c = '\x7d' then return ([], ⟨rest, h⟩)
  else if first then
    let (m, ⟨cs1, h1⟩) ← member cs
    let (ms, ⟨cs2, h2⟩) ← members false cs1
    return (m :: ms, ⟨cs2, Nat.lt_trans h2 h1⟩)
  else if c = ',' then
    let (m, ⟨cs1, h1⟩) ← member rest
    let (ms, ⟨cs2, h2⟩) ← members false cs1
    return (m :: ms, ⟨cs2, Nat.lt_trans h2 (Nat.lt_trans h1 h)⟩)
  else none
termination_by 2 * cs.length + 1

/-- Reads a key, a colon and a value. -/
def member (cs : List Char) : Option ((Datum × Datum) × Shorter cs) := do
  let (c, ⟨cs1, h1⟩) ← next cs
  if c ≠ '"' then none
  let (pieces, ⟨cs2, h2⟩) ← stringBody cs1
  let (d, ⟨cs3, h3⟩) ← next cs2
  if d ≠ ':' then none
  let (v, ⟨cs4, h4⟩) ← value cs3
  return ((ofPieces pieces, v), ⟨cs4, by omega⟩)
termination_by 2 * cs.length
end

/-- Reads a text that is one value. -/
def read? (text : String) : Option Datum := do
  let (d, rest) ← value text.toList
  if (next rest.val).isNone then some d else none

end Discharge.JsonReader
