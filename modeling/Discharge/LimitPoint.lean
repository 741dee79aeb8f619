import Discharge.Expr.Parser
import Discharge.Text.Blank

/-!
Points that a variable approaches, and intervals of integration.
-/

namespace Discharge

/-- A point a variable approaches. -/
inductive LimitPoint where
  | finite (at_ : Expr)
  | posInfinity
  | negInfinity
  deriving DecidableEq

namespace LimitPoint

/-- The written form. -/
def render : LimitPoint → String
  | .finite e => e.render
  | .posInfinity => "oo"
  | .negInfinity => "-oo"

/-- Is the point infinite? -/
def isInfinite : LimitPoint → Bool
  | .finite _ => false
  | _ => true

/-- The infinite point of a given spelling. -/
def infinity? : String → Option LimitPoint
  | "oo" | "+oo" | "inf" | "+inf" | "infinity" => some .posInfinity
  | "-oo" | "-inf" | "-infinity" => some .negInfinity
  | _ => none

/-- Reads a point: a spelling of infinity or an expression, between white space. -/
def parse (text : String) : Except OracleError LimitPoint :=
  let text := Text.trim text
  match infinity? text with
  | some point => .ok point
  | none => (Expr.parse text).map .finite

end LimitPoint

/-- An interval of integration; either end may be infinite. -/
structure Interval where
  lower : LimitPoint
  upper : LimitPoint
  deriving DecidableEq

end Discharge
