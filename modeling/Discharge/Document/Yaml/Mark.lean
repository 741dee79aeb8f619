/-!
YAML text as characters that know their place.

Line breaks are made uniform: a carriage return, with or without a line feed
after it, and the control character `U+0085` count as a line feed.  The line and
paragraph separators of Unicode stay what they are.
-/

namespace Discharge.Yaml

/-- A character with its place in the text. -/
structure Mark where
  char : Char
  /-- How many bytes of the text stand before it. -/
  index : Nat
  line : Nat
  column : Nat

/-- Does the character end a line? -/
def isBreak (c : Char) : Bool := c == '\n' || c == '\u2028' || c == '\u2029'

/-- Is this a blank within a line? -/
def isSpace (c : Char) : Bool := c == ' ' || c == '\t'

/-- Is this a byte order mark? -/
def isOrderMark (c : Char) : Bool := c == '\uFEFF'

/-- Is this a letter or digit of ASCII, a dash or an underscore? -/
def isWordChar (c : Char) : Bool := c.isAlphanum || c == '_' || c == '-'

/-- May the character stand in a text? -/
def isPrintable (c : Char) : Bool :=
  let n := c.toNat
  n == 0x09 || n == 0x0A || n == 0x0D || (0x20 ≤ n && n ≤ 0x7E) || n == 0x85
    || (0xA0 ≤ n && n ≤ 0xFFFD) || 0x10000 ≤ n

/-- The characters of a text from a place on. -/
def marksFrom (index line column : Nat) : List Char → List Mark
  | [] => []
  | '\r' :: '\n' :: rest => ⟨'\n', index, line, column⟩ :: marksFrom (index + 2) (line + 1) 0 rest
  | c :: rest =>
    let next := index + c.utf8Size
    let c := if c = '\r' ∨ c = '\u0085' then '\n' else c
    ⟨c, index, line, column⟩ ::
      (if isBreak c then marksFrom next (line + 1) 0 rest
       else marksFrom next line (column + 1) rest)

/-- The characters of a text. -/
def marks? (text : String) : Option (List Mark) :=
  if text.toList.all isPrintable then some (marksFrom 0 0 0 text.toList) else none

/-- Does a blank, a line break or the end of the text come next? -/
def atBlank : List Mark → Bool
  | [] => true
  | m :: _ => isSpace m.char || isBreak m.char

/-- Is the next character one of these? -/
def atAnyOf (cs : List Char) : List Mark → Bool
  | [] => false
  | m :: _ => cs.contains m.char

/-- Does a line start here with three times a character and a blank? -/
def atTriple (c : Char) : List Mark → Bool
  | a :: b :: d :: rest =>
    a.column = 0 && a.char = c && b.char = c && d.char = c && atBlank rest
  | _ => false

/-- Does the marker of a document's start or end come next? -/
def atMarker (ms : List Mark) : Bool := atTriple '-' ms || atTriple '.' ms

end Discharge.Yaml
