import Discharge.Document.Yaml.Mark
import Discharge.Document.Yaml.Scalar
import Discharge.Text.Remaining

/-!
The text of YAML scalars: without quotes, in single quotes, in double quotes.

A scalar may go over several lines.  Between two words a single line break is a
blank; of several line breaks all but the first are kept.
-/

namespace Discharge.Yaml

/-- What a gap between words stands for: blanks within a line are kept; one line
break is a blank, of more all but the first are kept. -/
def gapText (gap : List Char) : List Char :=
  match gap.filter isBreak with
  | [] => gap
  | first :: others =>
    if first ≠ '\n' then first :: others
    else if others.isEmpty then [' '] else others

/-- An unquoted scalar: its text, whether a line ended after its last word, and
what follows.  In a flow collection it ends at the characters of such
collections, elsewhere at a line that is indented less than `indent`. -/
def plain (inFlow : Bool) (indent : Nat) (gap : List Char) :
    (ms : List Mark) → Option (List Char × Bool × Remaining ms)
  | [] => some ([], gap.any isBreak, Remaining.whole [])
  | m :: ms =>
    let c := m.char
    let broken := gap.any isBreak
    if isSpace c || isBreak c then
      if c = '\t' ∧ broken ∧ m.column < indent then none
      else do
        let (text, ended, ⟨rest, h⟩) ← plain inFlow indent (gap ++ [c]) ms
        return (text, ended, ⟨rest, Nat.le_succ_of_le h⟩)
    else if !gap.isEmpty
        && ((!inFlow && m.column < indent) || atMarker (m :: ms) || c == '#') then
      some ([], broken, Remaining.whole (m :: ms))
    else if inFlow && c == ':' && (ms.head?.any fun n => ",?[]\x7b\x7d".toList.contains n.char) then
      none
    else if (c == ':' && atBlank ms) || (inFlow && ",[]\x7b\x7d".toList.contains c) then
      some ([], broken, Remaining.whole (m :: ms))
    else do
      let (text, ended, ⟨rest, h⟩) ← plain inFlow indent [] ms
      return (gapText gap ++ c :: text, ended, ⟨rest, Nat.le_succ_of_le h⟩)

/-- A scalar in single quotes, in which a quote is written twice. -/
def singleQuoted (gap : List Char) : (ms : List Mark) → Option (List Char × Shorter ms)
  | [] => none
  | m :: ms =>
    let c := m.char
    if atMarker (m :: ms) then none
    else if isSpace c || isBreak c then do
      let (text, ⟨rest, h⟩) ← singleQuoted (gap ++ [c]) ms
      return (text, ⟨rest, Nat.lt_succ_of_lt h⟩)
    else if c = '\'' then
      match ms with
      | [] => some (gapText gap, ⟨[], Nat.lt_succ_self _⟩)
      | n :: ms' =>
        if n.char = '\'' then do
          let (text, ⟨rest, h⟩) ← singleQuoted [] ms'
          return (gapText gap ++ '\'' :: text, ⟨rest, Nat.lt_succ_of_lt (Nat.lt_succ_of_lt h)⟩)
        else some (gapText gap, ⟨n :: ms', Nat.lt_succ_self _⟩)
    else do
      let (text, ⟨rest, h⟩) ← singleQuoted [] ms
      return (gapText gap ++ c :: text, ⟨rest, Nat.lt_succ_of_lt h⟩)

/-- The character a one-letter escape stands for. -/
def escaped? : Char → Option Char
  | '0' => some '\x00'
  | 'a' => some '\x07'
  | 'b' => some '\x08'
  | 't' | '\t' => some '\t'
  | 'n' => some '\n'
  | 'v' => some '\x0b'
  | 'f' => some '\x0c'
  | 'r' => some '\r'
  | 'e' => some '\x1b'
  | ' ' => some ' '
  | '"' => some '"'
  | '/' => some '/'
  | '\\' => some '\\'
  | 'N' => some '\u0085'
  | '_' => some '\u00a0'
  | 'L' => some '\u2028'
  | 'P' => some '\u2029'
  | _ => none

/-- How many hexadecimal digits follow an escape. -/
def escapeDigits : Char → Nat
  | 'x' => 2
  | 'u' => 4
  | 'U' => 8
  | _ => 0

/-- The number of a count of hexadecimal digits. -/
def hexNumber? (value : Nat) : Nat → (ms : List Mark) → Option (Nat × Remaining ms)
  | 0, ms => some (value, Remaining.whole ms)
  | _ + 1, [] => none
  | count + 1, m :: ms => do
    let d ← digitValue? 16 m.char
    let (n, ⟨rest, h⟩) ← hexNumber? (16 * value + d) count ms
    return (n, ⟨rest, Nat.le_succ_of_le h⟩)

/-- The character of a code point, unless it is half of a surrogate pair or too
large. -/
def codePoint? (n : Nat) : Option Char :=
  if n < 0xD800 ∨ (0xE000 ≤ n ∧ n ≤ 0x10FFFF) then some (Char.ofNat n) else none

/-- The character of an escape whose letter comes next. -/
def escape? (ms : List Mark) : Option (Char × Shorter ms) :=
  match ms with
  | [] => none
  | m :: ms =>
    match escaped? m.char with
    | some c => some (c, ⟨ms, Nat.lt_succ_self _⟩)
    | none =>
      if escapeDigits m.char = 0 then none
      else do
        let (n, ⟨rest, h⟩) ← hexNumber? 0 (escapeDigits m.char) ms
        return (← codePoint? n, ⟨rest, Nat.lt_succ_of_le h⟩)

/-- A scalar in double quotes.  A line break after a backslash counts for
nothing, and `joined` tells that the gap started with one. -/
def doubleQuoted (gap : List Char) (joined : Bool) (ms : List Mark) :
    Option (List Char × Shorter ms) :=
  match ms with
  | [] => none
  | m :: ms =>
    let c := m.char
    let between := if joined then gap.filter isBreak else gapText gap
    if atMarker (m :: ms) then none
    else if isSpace c || isBreak c then do
      let (text, ⟨rest, h⟩) ← doubleQuoted (gap ++ [c]) joined ms
      return (text, ⟨rest, Nat.lt_succ_of_lt h⟩)
    else if c = '"' then some (between, ⟨ms, Nat.lt_succ_self _⟩)
    else if c = '\\' then
      if ms.head?.any fun n => isBreak n.char then do
        let (text, ⟨rest, h⟩) ← doubleQuoted [] true (ms.drop 1)
        return (between ++ text, ⟨rest, by simp only [List.length_drop, List.length_cons] at *; omega⟩)
      else do
        let (e, ⟨ms', h'⟩) ← escape? ms
        let (text, ⟨rest, h⟩) ← doubleQuoted [] false ms'
        return (between ++ e :: text, ⟨rest, by simp only [List.length_cons]; omega⟩)
    else do
      let (text, ⟨rest, h⟩) ← doubleQuoted [] false ms
      return (between ++ c :: text, ⟨rest, Nat.lt_succ_of_lt h⟩)
termination_by ms.length
decreasing_by all_goals simp only [List.length_drop, List.length_cons] at *; omega

end Discharge.Yaml
