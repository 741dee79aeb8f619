import Discharge.Theory

/-!
Plans: how an obligation of a catalog is to be discharged, with what the
strategy needs to know.
-/

namespace Discharge

/-- A strategy with its inputs. -/
inductive Plan where
  | simplification
  | induction (sum : Summation)
  /-- A contradiction from the statement that the text is. -/
  | contradiction (assumption : String)
  | limit (expression : Expr) (var : String) (point : LimitPoint) (expected : Expr)
  | derivative (function : Expr) (var : String) (expected : Expr)
  /-- An integral; without bounds an antiderivative. -/
  | integral (integrand : Expr) (var : String) (lower upper : Option LimitPoint) (expected : Expr)
  deriving DecidableEq

namespace Plan

/-- The method of a plan. -/
def method : Plan → Method
  | .simplification => .simplification
  | .induction _ => .induction
  | .contradiction _ => .contradiction
  | .limit .. => .limit
  | .derivative .. => .derivative
  | .integral .. => .integral

/-- The interval between two bounds, of which both or none are given. -/
def interval? : Option LimitPoint → Option LimitPoint → Option (Option Interval)
  | some lower, some upper => some (some ⟨lower, upper⟩)
  | none, none => some none
  | _, _ => none

/-- The strategy of a plan; none if only one bound of an integral is given. -/
def strategy? : Plan → Option Strategy
  | .simplification => some .simplification
  | .induction sum => some sum.strategy
  | .contradiction assumption =>
    some (.contradiction (Claim.parse assumption) Strategy.residualContradiction)
  | .limit expression var point expected => some (.limit expression var point expected)
  | .derivative function var expected => some (.derivative function var expected)
  | .integral integrand var lower upper expected =>
    (interval? lower upper).map fun bounds => .integral integrand var bounds expected

/-- Puts definitions into a point. -/
def expandPoint (t : Theory) : LimitPoint → Except TheoryError LimitPoint
  | .finite e => do return .finite (← t.expand e)
  | infinite => .ok infinite

/-- Puts definitions into a bound, if it is given. -/
def expandBound (t : Theory) : Option LimitPoint → Except TheoryError (Option LimitPoint)
  | none => .ok none
  | some point => do return some (← expandPoint t point)

/-- Puts the definitions of a theory into the inputs of a plan. -/
def expand (t : Theory) : Plan → Except TheoryError Plan
  | .simplification => .ok .simplification
  | .induction sum => do
    let term ← t.expand sum.term
    let closedForm ← t.expand sum.closedForm
    return .induction { sum with term, closedForm }
  | .contradiction assumption => do
    return .contradiction (← t.expandClaim (Claim.parse assumption)).render
  | .limit expression var point expected => do
    let expression ← t.expand expression
    let point ← expandPoint t point
    return .limit expression var point (← t.expand expected)
  | .derivative function var expected => do
    let function ← t.expand function
    return .derivative function var (← t.expand expected)
  | .integral integrand var lower upper expected => do
    let integrand ← t.expand integrand
    let lower ← expandBound t lower
    let upper ← expandBound t upper
    return .integral integrand var lower upper (← t.expand expected)

/-- The inputs of a plan as members of a document. -/
def members : Plan → List (String × Json)
  | .simplification => []
  | .induction sum =>
    [("variable", .text sum.var), ("term", .text sum.term.render),
      ("closed_form", .text sum.closedForm.render), ("start", .integer sum.start)]
  | .contradiction assumption => [("assumption", .text assumption)]
  | .limit expression var point expected =>
    [("expression", .text expression.render), ("variable", .text var),
      ("point", .text point.render), ("expected", .text expected.render)]
  | .derivative function var expected =>
    [("function", .text function.render), ("variable", .text var),
      ("expected", .text expected.render)]
  | .integral integrand var lower upper expected =>
    let bound := Json.ofOption fun point : LimitPoint => .text point.render
    [("integrand", .text integrand.render), ("variable", .text var), ("lower", bound lower),
      ("upper", bound upper), ("expected", .text expected.render)]

/-- The plan as a document. -/
def toJson (p : Plan) : Json := .object (("method", .text p.method.name) :: p.members)

end Plan

end Discharge
