import Discharge.Table
import Discharge.Decimal.Shortest

/-!
JSON values and their written forms.

The canonical form of a value has the members of every object in increasing
order of their keys, the last of several members with one key being kept.
`Json.canonicalText` writes it without blanks and is what content addresses are
taken of; `Json.prettyText` writes it over several lines with an indent of two.
-/

namespace Discharge

/-- A JSON value.  A number is an integer or a binary floating point number. -/
inductive Json where
  | null
  | bool (value : Bool)
  | integer (value : Int)
  | float (value : Float)
  | text (value : String)
  | array (items : List Json)
  | object (members : List (String × Json))
  deriving Inhabited

namespace Json

/-- The string items of a list as an array. -/
def texts (items : List String) : Json := .array (items.map .text)

/-- An absent value is null. -/
def ofOption {α : Type} (f : α → Json) : Option α → Json
  | none => .null
  | some a => f a

/-! ## Canonical form -/

/-- Members in increasing order of their keys; of one key the last is kept. -/
def sortMembers (members : List (String × Json)) : List (String × Json) :=
  members.foldl (fun sorted m => Table.insertEntry m.1 m.2 sorted) []

mutual
/-- Orders the members of every object in the value. -/
def canonical : Json → Json
  | .array items => .array (canonicalAll items)
  | .object members => .object (sortMembers (canonicalMembers members))
  | v => v

/-- The canonical forms of the items of an array. -/
def canonicalAll : List Json → List Json
  | [] => []
  | v :: vs => canonical v :: canonicalAll vs

/-- The members of an object with canonical values. -/
def canonicalMembers : List (String × Json) → List (String × Json)
  | [] => []
  | (k, v) :: rest => (k, canonical v) :: canonicalMembers rest
end

/-! ## Text -/

/-- A lower-case hexadecimal digit. -/
def hexDigit (n : Nat) : Char :=
  if n < 10 then Char.ofNat ('0'.toNat + n) else Char.ofNat ('a'.toNat + (n - 10))

/-- One character inside a quoted string. -/
def escapeChar (c : Char) : List Char :=
  if c = '"' then ['\\', '"']
  else if c = '\\' then ['\\', '\\']
  else if c = '\x08' then ['\\', 'b']
  else if c = '\x0c' then ['\\', 'f']
  else if c = '\n' then ['\\', 'n']
  else if c = '\r' then ['\\', 'r']
  else if c = '\t' then ['\\', 't']
  else if c.toNat < 0x20 then
    ['\\', 'u', '0', '0', hexDigit (c.toNat / 16), hexDigit (c.toNat % 16)]
  else [c]

/-- A string in quotes. -/
def quote (s : String) : String :=
  "\"" ++ String.ofList (s.toList.flatMap escapeChar) ++ "\""

/-- A floating point number: positional while the leading digit stands between
the fifth decimal and the sixteenth place, with an exponent beyond, and of two
equally near decimals the one with an even last digit; what is not finite has no
number and is written as null. -/
def floatText (x : Float) : String :=
  if x.isNaN || x.isInf then "null"
  else
    let s := Decimal.shortest .even x
    let e := Decimal.leadingExponent s
    let sign := if Binary64.isNegative x then "-" else ""
    if -5 ≤ e ∧ e ≤ 15 then sign ++ Decimal.positional s ".0" else sign ++ Decimal.exponential s

mutual
/-- The value without blanks. -/
def compact : Json → String
  | .null => "null"
  | .bool b => if b then "true" else "false"
  | .integer n => toString n
  | .float x => floatText x
  | .text s => quote s
  | .array items => "[" ++ ",".intercalate (compactAll items) ++ "]"
  | .object members => "\x7b" ++ ",".intercalate (compactMembers members) ++ "\x7d"

/-- The items of an array without blanks. -/
def compactAll : List Json → List String
  | [] => []
  | v :: vs => compact v :: compactAll vs

/-- The members of an object without blanks. -/
def compactMembers : List (String × Json) → List String
  | [] => []
  | (k, v) :: rest => (quote k ++ ":" ++ compact v) :: compactMembers rest
end

/-- A line break and an indent of two blanks a level. -/
def newline (level : Nat) : String := "\n" ++ String.ofList (List.replicate (2 * level) ' ')

mutual
/-- The value over several lines, starting at an indent. -/
def prettyAt (level : Nat) : Json → String
  | .array [] => "[]"
  | .array items =>
    "[" ++ newline (level + 1) ++ ("," ++ newline (level + 1)).intercalate (prettyAll (level + 1) items)
      ++ newline level ++ "]"
  | .object [] => "\x7b\x7d"
  | .object members =>
    "\x7b" ++ newline (level + 1)
      ++ ("," ++ newline (level + 1)).intercalate (prettyMembers (level + 1) members)
      ++ newline level ++ "\x7d"
  | .null => "null"
  | .bool b => if b then "true" else "false"
  | .integer n => toString n
  | .float x => floatText x
  | .text s => quote s

/-- The items of an array over several lines. -/
def prettyAll (level : Nat) : List Json → List String
  | [] => []
  | v :: vs => prettyAt level v :: prettyAll level vs

/-- The members of an object over several lines. -/
def prettyMembers (level : Nat) : List (String × Json) → List String
  | [] => []
  | (k, v) :: rest => (quote k ++ ": " ++ prettyAt level v) :: prettyMembers level rest
end

/-- The canonical text of a value. -/
def canonicalText (v : Json) : String := v.canonical.compact

/-- The canonical form over several lines. -/
def prettyText (v : Json) : String := v.canonical.prettyAt 0

end Json

/-- A table as an object. -/
def Table.toJson {α : Type} (f : α → Json) (t : Table α) : Json :=
  .object (t.entries.map fun e => (e.1, f e.2))

end Discharge
