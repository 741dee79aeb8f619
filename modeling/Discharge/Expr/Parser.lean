import Discharge.Expr.Token
import Discharge.Error
import Discharge.Text.Remaining

/-!
Reading an expression from text.

The grammar, from the loosest to the tightest binding:

    sum     = product { ("+" | "-") product }
    product = unary { ("*" | "/") unary }
    unary   = ("-" | "+") unary | power
    power   = primary [ "^" unary ]
    primary = number | "(" sum ")" | function "(" sum ")" | name

Sums and products associate to the left, powers to the right.  A product or a
quotient of two literals is folded into one literal, and a literal zero is
refused as a divisor.
-/

namespace Discharge

namespace Parser

/-- The offset of the next token, or the end of the text. -/
def offsetOf (stop : Nat) : List Lexeme → Nat
  | [] => stop
  | t :: _ => t.offset

/-- What a name that is not called stands for; infinity is no operand. -/
def operand? (name : String) : Option Expr :=
  match name with
  | "pi" => some (.constant .pi)
  | "E" | "e" => some (.constant .euler)
  | "I" | "i" => some (.constant .imaginary)
  | "oo" | "inf" => none
  | _ => some (.symbol name)

/-- The product of two operands, folded when both are literals. -/
def times : Expr → Expr → Expr
  | .number a, .number b => .number (a * b)
  | a, b => a * b

/-- The quotient of two operands, folded when both are literals; none when the
divisor is the literal zero. -/
def over? (a b : Expr) : Option Expr :=
  if b.isLiteralZero then none
  else match a, b with
    | .number p, .number q => some (.number (p / q))
    | a, b => some (a / b)

/-- Reads the closing parenthesis that must come next. -/
def close (stop : Nat) (problem : Problem) (ts : List Lexeme) : Except ParseError (Shorter ts) :=
  match ts with
  | ⟨_, .closeParen⟩ :: rest => .ok ⟨rest, Nat.lt_succ_self _⟩
  | ts => .error ⟨offsetOf stop ts, problem⟩

mutual
/-- Reads a sum. -/
def sum (stop : Nat) (ts : List Lexeme) : Except ParseError (Expr × Shorter ts) := do
  let (first, ⟨rest, h⟩) ← product stop ts
  let (e, ⟨rest', h'⟩) ← sumTail stop first rest
  return (e, ⟨rest', Nat.lt_of_le_of_lt h' h⟩)
termination_by 6 * ts.length + 5

/-- Goes on with a sum of which `left` is read. -/
def sumTail (stop : Nat) (left : Expr) (ts : List Lexeme) :
    Except ParseError (Expr × Remaining ts) :=
  match ts with
  | ⟨_, .plus⟩ :: ts => do
    let (right, ⟨rest, h⟩) ← product stop ts
    let (e, ⟨rest', h'⟩) ← sumTail stop (left + right) rest
    return (e, ⟨rest', by simp only [List.length_cons]; omega⟩)
  | ⟨_, .minus⟩ :: ts => do
    let (right, ⟨rest, h⟩) ← product stop ts
    let (e, ⟨rest', h'⟩) ← sumTail stop (left - right) rest
    return (e, ⟨rest', by simp only [List.length_cons]; omega⟩)
  | ts => .ok (left, ⟨ts, Nat.le_refl _⟩)
termination_by 6 * ts.length + 0

/-- Reads a product. -/
def product (stop : Nat) (ts : List Lexeme) : Except ParseError (Expr × Shorter ts) := do
  let (first, ⟨rest, h⟩) ← unary stop ts
  let (e, ⟨rest', h'⟩) ← productTail stop first rest
  return (e, ⟨rest', Nat.lt_of_le_of_lt h' h⟩)
termination_by 6 * ts.length + 4

/-- Goes on with a product of which `left` is read. -/
def productTail (stop : Nat) (left : Expr) (ts : List Lexeme) :
    Except ParseError (Expr × Remaining ts) :=
  match ts with
  | ⟨_, .star⟩ :: ts => do
    let (right, ⟨rest, h⟩) ← unary stop ts
    let (e, ⟨rest', h'⟩) ← productTail stop (times left right) rest
    return (e, ⟨rest', by simp only [List.length_cons]; omega⟩)
  | ⟨offset, .slash⟩ :: ts => do
    let (right, ⟨rest, h⟩) ← unary stop ts
    match over? left right with
    | none => .error ⟨offset, .literalZeroDivisor⟩
    | some quotient =>
      let (e, ⟨rest', h'⟩) ← productTail stop quotient rest
      return (e, ⟨rest', by simp only [List.length_cons]; omega⟩)
  | ts => .ok (left, ⟨ts, Nat.le_refl _⟩)
termination_by 6 * ts.length + 0

/-- Reads an operand with the signs before it. -/
def unary (stop : Nat) (ts : List Lexeme) : Except ParseError (Expr × Shorter ts) :=
  match ts with
  | ⟨_, .minus⟩ :: ts => do
    let (e, ⟨rest, h⟩) ← unary stop ts
    return (-e, ⟨rest, Nat.lt_succ_of_lt h⟩)
  | ⟨_, .plus⟩ :: ts => do
    let (e, ⟨rest, h⟩) ← unary stop ts
    return (e, ⟨rest, Nat.lt_succ_of_lt h⟩)
  | ts => power stop ts
termination_by 6 * ts.length + 3

/-- Reads a primary and the exponent after it, if there is one. -/
def power (stop : Nat) (ts : List Lexeme) : Except ParseError (Expr × Shorter ts) := do
  let (base, ⟨rest, h⟩) ← primary stop ts
  match rest, h with
  | ⟨_, .caret⟩ :: rest, h =>
    have shorter : rest.length < ts.length := Nat.lt_of_succ_lt h
    let (exponent, ⟨rest', h'⟩) ← unary stop rest
    return (.power base exponent, ⟨rest', Nat.lt_trans h' shorter⟩)
  | rest, h => return (base, ⟨rest, h⟩)
termination_by 6 * ts.length + 2

/-- Reads a number, a name, a call or a group. -/
def primary (stop : Nat) (ts : List Lexeme) : Except ParseError (Expr × Shorter ts) :=
  match ts with
  | [] => .error ⟨stop, .unexpectedEnd⟩
  | ⟨_, .number value⟩ :: rest => .ok (.number value, ⟨rest, Nat.lt_succ_self _⟩)
  | ⟨_, .openParen⟩ :: ts => do
    let (e, ⟨rest, h⟩) ← sum stop ts
    let ⟨rest', h'⟩ ← close stop .unclosedGroup rest
    return (e, ⟨rest', by simp only [List.length_cons]; omega⟩)
  | ⟨offset, .word name⟩ :: ⟨_, .openParen⟩ :: ts =>
    match Function.ofName? name with
    | none => .error ⟨offset, .unknownFunction name⟩
    | some f => do
      let (e, ⟨rest, h⟩) ← sum stop ts
      let ⟨rest', h'⟩ ← close stop .unclosedCall rest
      return (.apply f e, ⟨rest', by simp only [List.length_cons]; omega⟩)
  | ⟨offset, .word name⟩ :: rest =>
    match operand? name with
    | none => .error ⟨offset, .infinityOperand⟩
    | some e => .ok (e, ⟨rest, Nat.lt_succ_self _⟩)
  | ⟨offset, _⟩ :: _ => .error ⟨offset, .unexpectedToken⟩
termination_by 6 * ts.length + 1
end

/-- Reads a whole text as one expression. -/
def parse (text : String) : Except ParseError Expr := do
  let ts ← Token.scanText text
  if ts.isEmpty then throw ⟨0, .emptyExpression⟩
  let (e, rest) ← sum text.utf8ByteSize ts
  match rest.val with
  | [] => return e
  | t :: _ => throw ⟨t.offset, .trailingInput⟩

end Parser

/-- The failure of an operation that had to read an expression. -/
def ParseError.toOracleError (e : ParseError) : OracleError := .parse e.offset e.problem.message

/-- Reads an expression. -/
def Expr.parse (text : String) : Except OracleError Expr :=
  (Parser.parse text).mapError ParseError.toOracleError

end Discharge
