import Discharge.Document.Json
import Discharge.Expr.Parser

/-!
Statements: an expression, an equation, or text that is neither.
-/

namespace Discharge

/-- A statement. -/
inductive Claim where
  | expr (e : Expr)
  | equation (lhs rhs : Expr)
  | text (s : String)
  deriving DecidableEq

namespace Claim

/-- The parts of a text before and after its first equals sign. -/
def splitEquation? (text : String) : Option (String × String) :=
  let cs := text.toList
  match cs.dropWhile (· ≠ '=') with
  | [] => none
  | _ :: rest => some (String.ofList (cs.takeWhile (· ≠ '=')), String.ofList rest)

/-- Reads a statement that is no equation: an expression, or else the text. -/
def parsePlain (text : String) : Claim :=
  match Expr.parse text with
  | .ok e => .expr e
  | .error _ => .text text

/-- Reads a statement.  What cannot be read as an equation or an expression
stays text. -/
def parse (text : String) : Claim :=
  match splitEquation? text with
  | none => parsePlain text
  | some (left, right) =>
    match Expr.parse left, Expr.parse right with
    | .ok lhs, .ok rhs => .equation lhs rhs
    | _, _ => parsePlain text

/-- The expression, if the statement is one. -/
def expr? : Claim → Option Expr
  | .expr e => some e
  | _ => none

/-- Applies a function to every expression of the statement. -/
def map (f : Expr → Expr) : Claim → Claim
  | .expr e => .expr (f e)
  | .equation lhs rhs => .equation (f lhs) (f rhs)
  | .text s => .text s

/-- Applies a function that may fail to every expression of the statement. -/
def mapM {ε : Type} (f : Expr → Except ε Expr) : Claim → Except ε Claim
  | .expr e => do return .expr (← f e)
  | .equation lhs rhs => do return .equation (← f lhs) (← f rhs)
  | .text s => .ok (.text s)

/-- The written form. -/
def render : Claim → String
  | .expr e => e.render
  | .equation lhs rhs => lhs.render ++ " = " ++ rhs.render
  | .text s => s

/-- The statement as a document. -/
def toJson : Claim → Json
  | .expr e => .object [("expr", .text e.render)]
  | .equation lhs rhs =>
    .object [("equation", .object [("lhs", .text lhs.render), ("rhs", .text rhs.render)])]
  | .text s => .object [("text", .text s)]

end Claim

end Discharge
