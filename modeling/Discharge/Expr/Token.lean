import Discharge.Expr.Printer

/-!
Splitting the text of an expression into tokens.

The longest run of digits and dots is one number, the longest run of letters,
digits and underscores that starts with no digit is one word, `**` is another
spelling of `^`, and ASCII blanks are skipped.  A token carries the byte offset
at which it starts.
-/

namespace Discharge

/-- What is wrong with a text that is no expression. -/
inductive Problem where
  /-- A character that starts no token. -/
  | unexpectedCharacter (found : Char)
  /-- A run of digits and dots that is no decimal. -/
  | malformedNumber (literal : String)
  /-- There is no token at all. -/
  | emptyExpression
  /-- A token that cannot stand where an operand is due. -/
  | unexpectedToken
  /-- The text ends where an operand is due. -/
  | unexpectedEnd
  /-- A group is not closed. -/
  | unclosedGroup
  /-- The argument of a call is not closed. -/
  | unclosedCall
  /-- A call of a name that is no function. -/
  | unknownFunction (name : String)
  /-- A name of infinity used as an operand. -/
  | infinityOperand
  /-- A divisor that is the literal zero. -/
  | literalZeroDivisor
  /-- Tokens after a complete expression. -/
  | trailingInput
  deriving DecidableEq

/-- The problem in words. -/
def Problem.message : Problem → String
  | .unexpectedCharacter c => "unexpected character `" ++ String.singleton c ++ "`"
  | .malformedNumber literal => "malformed number `" ++ literal ++ "`"
  | .emptyExpression => "empty expression"
  | .unexpectedToken => "unexpected token"
  | .unexpectedEnd => "unexpected end of input"
  | .unclosedGroup => "expected `)`"
  | .unclosedCall => "expected `)` after function argument"
  | .unknownFunction name => "unknown function `" ++ name ++ "`"
  | .infinityOperand => "infinity is only valid as a limit point or bound"
  | .literalZeroDivisor => "division by literal zero"
  | .trailingInput => "trailing input"

/-- A problem and the byte offset at which it was met. -/
structure ParseError where
  offset : Nat
  problem : Problem
  deriving DecidableEq

/-- The tokens of the expression language. -/
inductive Token where
  | number (value : Rat)
  | word (name : String)
  | plus
  | minus
  | star
  | slash
  | caret
  | openParen
  | closeParen
  deriving DecidableEq

/-- A token and the byte offset at which it starts. -/
structure Lexeme where
  offset : Nat
  token : Token
  deriving DecidableEq

namespace Token

/-- The blanks that separate tokens. -/
def isBlank (c : Char) : Bool := c == ' ' || c == '\t' || c == '\n' || c == '\r'

/-- The characters of a number literal. -/
def isLiteralChar (c : Char) : Bool := c.isDigit || c == '.'

/-- The characters a word may start with. -/
def isWordStart (c : Char) : Bool := c.isAlpha || c == '_'

/-- The characters a word may go on with. -/
def isWordChar (c : Char) : Bool := c.isAlphanum || c == '_'

/-- The number written by decimal digits, the most significant first. -/
def digitsValue (cs : List Char) : Nat := cs.foldl (fun n c => 10 * n + (c.toNat - '0'.toNat)) 0

/-- The exact value of a decimal: at most one dot and at least one digit. -/
def decimal? (literal : List Char) : Option Rat :=
  let whole := literal.takeWhile Char.isDigit
  let fraction := (literal.dropWhile Char.isDigit).drop 1
  if fraction.contains '.' || (whole.isEmpty && fraction.isEmpty) then none
  else some (mkRat (digitsValue (whole ++ fraction)) (Nat.pow 10 fraction.length))

/-- The token a single character stands for; a lone star is among them. -/
def ofChar? : Char → Option Token
  | '+' => some .plus
  | '-' => some .minus
  | '*' => some .star
  | '/' => some .slash
  | '^' => some .caret
  | '(' => some .openParen
  | ')' => some .closeParen
  | _ => none

/-- The tokens of a text that starts at byte `offset`. -/
def scan (offset : Nat) : List Char → Except ParseError (List Lexeme)
  | [] => .ok []
  | c :: cs =>
    if isBlank c then scan (offset + 1) cs
    else if isLiteralChar c then
      let run := c :: cs.takeWhile isLiteralChar
      match decimal? run with
      | none => .error ⟨offset, .malformedNumber (String.ofList run)⟩
      | some value => do
        let rest ← scan (offset + run.length) (cs.dropWhile isLiteralChar)
        return ⟨offset, .number value⟩ :: rest
    else if isWordStart c then do
      let run := c :: cs.takeWhile isWordChar
      let rest ← scan (offset + run.length) (cs.dropWhile isWordChar)
      return ⟨offset, .word (String.ofList run)⟩ :: rest
    else if c == '*' && cs.head? == some '*' then do
      let rest ← scan (offset + 2) (cs.drop 1)
      return ⟨offset, .caret⟩ :: rest
    else
      match ofChar? c with
      | none => .error ⟨offset, .unexpectedCharacter c⟩
      | some token => do
        let rest ← scan (offset + 1) cs
        return ⟨offset, token⟩ :: rest
termination_by cs => cs.length
decreasing_by
  all_goals simp only [List.length_cons, List.length_drop]
  · omega
  · exact Nat.lt_succ_of_le (List.dropWhile_sublist _).length_le
  · exact Nat.lt_succ_of_le (List.dropWhile_sublist _).length_le
  · omega
  · omega

/-- The tokens of a text. -/
def scanText (text : String) : Except ParseError (List Lexeme) := scan 0 text.toList

end Token

end Discharge
