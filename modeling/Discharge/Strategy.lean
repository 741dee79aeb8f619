import Discharge.Obligation
import Discharge.Oracle

/-!
Strategies: ways of discharging an obligation.

A strategy reads the obligation, asks the oracle and records steps.  It ends
with a verdict, with a fault, or by being abandoned; the steps recorded up to
then are kept in every case.
-/

namespace Discharge

/-- What a completed attempt found out. -/
inductive Verdict where
  | proven
  | refuted
  | inconclusive
  deriving DecidableEq

/-- The status an obligation gets from a verdict. -/
def Verdict.status : Verdict → Status
  | .proven => .proven
  | .refuted => .refuted
  | .inconclusive => .unknown

/-- Why an attempt could not be completed. -/
inductive Fault where
  /-- The oracle refused an operation. -/
  | oracle (e : OracleError)
  /-- A given probe failed. -/
  | probe (message : String)
  /-- The obligation does not have the statements that are needed. -/
  | claim (message : String)
  deriving DecidableEq

/-- The fault in words. -/
def Fault.message : Fault → String
  | .oracle e => "oracle error: " ++ e.message
  | .probe m => "probe error: " ++ m
  | .claim m => "malformed claim: " ++ m

/-- How an attempt ends without a verdict. -/
inductive Stop where
  | fault (f : Fault)
  /-- The computation was abandoned, with a message if there is one. -/
  | crash (message : Option String)
  deriving DecidableEq

/-- A computation that records steps and may stop early, keeping them. -/
abbrev Trail := ExceptT Stop (StateM (List String))

namespace Trail

/-- Records a step. -/
def step (text : String) : Trail Unit := modify (· ++ [text])

/-- The outcome of a question as the result of a probe. -/
def answer {α : Type} (r : Outcome α) : Except Stop α :=
  match r with
  | .ok a => .ok a
  | .error (.error e) => .error (.fault (.oracle e))
  | .error (.crash m) => .error (.crash m)

/-- Takes the result of a probe. -/
def probe {α : Type} (r : Except Stop α) : Trail α := liftExcept r

/-- Takes the answer to a question, or stops. -/
def ask {α : Type} (r : Outcome α) : Trail α := liftExcept (answer r)

/-- The steps recorded, and the verdict or the reason for stopping. -/
def start {α : Type} (t : Trail α) : Except Stop α × List String := t.run.run []

end Trail

/-- A way of discharging an obligation. -/
structure Strategy where
  method : Method
  attempt : Oracle → Obligation → Trail Verdict

namespace Strategy

open Trail

/-- The expression a statement has to be. -/
def expectExpr (claim : Claim) (role : String) : Except Stop Expr :=
  match claim.expr? with
  | some e => .ok e
  | none => .error (.fault (.claim
      (role ++ " `" ++ claim.render ++ "` is not a symbolic expression")))

/-- Reduces the difference of hypothesis and conclusion to zero.  The difference
is tried in simplified, expanded and factored form. -/
def simplification : Strategy where
  method := .simplification
  attempt oracle ob := do
    let hypothesis ← probe (expectExpr ob.hypothesis "hypothesis")
    let conclusion ← probe (expectExpr ob.conclusion "conclusion")
    let equality := hypothesis.render ++ " = " ++ conclusion.render
    let simplified ← ask (oracle.simplify (hypothesis - conclusion))
    step ("simplify((" ++ hypothesis.render ++ ") - (" ++ conclusion.render ++ ")) = "
      ++ simplified.render)
    if simplified.isLiteralZero then
      step equality
      return .proven
    let expanded ← ask (oracle.expand simplified)
    if expanded.isLiteralZero then
      step ("expand(" ++ simplified.render ++ ") = 0")
      step equality
      return .proven
    let factored ← ask (oracle.factor simplified)
    if factored.isLiteralZero then
      step ("factor(" ++ simplified.render ++ ") = 0")
      step equality
      return .proven
    step ("residual " ++ factored.render ++ " does not reduce to zero")
    return .refuted

/-- A question about the claim of an induction. -/
abbrev Probe := Oracle → Except Stop Bool

/-- Proves the conclusion from a base case and an inductive step. -/
def induction (baseCase inductiveStep : Probe) : Strategy where
  method := .induction
  attempt oracle ob := do
    if !(← probe (baseCase oracle)) then
      step "base case failed"
      return .refuted
    step "base case verified"
    if !(← probe (inductiveStep oracle)) then
      step "inductive step failed"
      return .refuted
    step "inductive step verified"
    step ("by induction: " ++ ob.conclusion.render)
    return .proven

/-- Proves the conclusion by a contradiction from an assumption.  Without a
contradiction nothing is decided. -/
def contradiction (assumption : Claim) (contradicts : Oracle → Claim → Except Stop Bool) :
    Strategy where
  method := .contradiction
  attempt oracle ob := do
    step ("assume " ++ assumption.render)
    if ← probe (contradicts oracle assumption) then
      step "contradiction derived"
      step ("therefore " ++ ob.conclusion.render)
      return .proven
    step "no contradiction derived; claim remains open"
    return .inconclusive

/-- The simplified difference of a computed and an expected expression. -/
def residual (oracle : Oracle) (computed expected : Expr) : Trail Expr :=
  ask (oracle.simplify (computed - expected))

/-- Proves that an expression tends to an expected value. -/
def limit (expression : Expr) (var : String) (point : LimitPoint) (expected : Expr) : Strategy where
  method := .limit
  attempt oracle _ := do
    let computed ← ask (oracle.limit expression var point)
    step ("lim " ++ var ++ " -> " ++ point.render ++ " of " ++ expression.render ++ " = "
      ++ computed.render)
    step ("expected " ++ expected.render)
    let difference ← residual oracle computed expected
    if difference.isLiteralZero then
      step "computed limit matches expected value"
      return .proven
    step ("limit differs from expected value by " ++ difference.render)
    return .refuted

/-- Proves that the derivative of a function is an expected expression. -/
def derivative (function : Expr) (var : String) (expected : Expr) : Strategy where
  method := .derivative
  attempt oracle _ := do
    let computed ← ask (oracle.differentiate function var)
    step ("d/d" ++ var ++ " (" ++ function.render ++ ") = " ++ computed.render)
    let difference ← residual oracle computed expected
    if difference.isLiteralZero then
      step ("matches expected derivative " ++ expected.render)
      return .proven
    step ("differs from expected derivative " ++ expected.render ++ " by " ++ difference.render)
    return .refuted

/-- The step that reports a computed integral. -/
def integralStep (integrand : Expr) (var : String) (computed : Expr) : Option Interval → String
  | some bounds =>
    "integral of " ++ integrand.render ++ " d" ++ var ++ " from " ++ bounds.lower.render ++ " to "
      ++ bounds.upper.render ++ " = " ++ computed.render
  | none => "antiderivative of " ++ integrand.render ++ " d" ++ var ++ " = " ++ computed.render

/-- Proves that an integral is an expected expression; antiderivatives need only
agree up to a constant. -/
def integral (integrand : Expr) (var : String) (bounds : Option Interval) (expected : Expr) :
    Strategy where
  method := .integral
  attempt oracle _ := do
    let computed ← ask (oracle.integrate integrand var bounds)
    step (integralStep integrand var computed bounds)
    let difference ← residual oracle computed expected
    if difference.isLiteralZero then
      step ("matches expected " ++ expected.render)
      return .proven
    if bounds.isNone then
      if ← ask (oracle.isConstant difference) then
        step ("differs from " ++ expected.render ++ " by the constant " ++ difference.render
          ++ "; equal up to a constant of integration")
        return .proven
    step ("differs from expected " ++ expected.render ++ " by " ++ difference.render)
    return .refuted

/-- An assumed equation is contradictory when the difference of its sides
simplifies to a constant other than zero. -/
def residualContradiction (oracle : Oracle) : Claim → Except Stop Bool
  | .equation lhs rhs => do
    let difference ← answer (oracle.simplify (lhs - rhs))
    if ← answer (oracle.isConstant difference) then
      return !(← answer (oracle.isZero difference))
    else return false
  | claim => .error (.fault (.claim ("assumption `" ++ claim.render ++ "` is not an equation")))

end Strategy

/-- A sum over a variable with a claimed closed form. -/
structure Summation where
  var : String
  term : Expr
  closedForm : Expr
  start : Int
  deriving DecidableEq

namespace Summation

/-- The closed form at the start is the first term. -/
def baseCase (s : Summation) : Strategy.Probe := fun oracle =>
  let start := Expr.int s.start
  Trail.answer (oracle.isZero
    (s.closedForm.substitute s.var start - s.term.substitute s.var start))

/-- The closed form grows by the next term. -/
def inductiveStep (s : Summation) : Strategy.Probe := fun oracle =>
  let next := Expr.symbol s.var + Expr.one
  Trail.answer (oracle.isZero
    (s.closedForm.substitute s.var next - s.closedForm - s.term.substitute s.var next))

/-- Proves the closed form by induction. -/
def strategy (s : Summation) : Strategy := .induction s.baseCase s.inductiveStep

end Summation

end Discharge
