import Discharge.Claim
import Discharge.Text.Blank

/-!
Proof obligations: a statement to be derived from another one, with the state of
its verification and the log of all attempts.
-/

namespace Discharge

/-- The methods of verification. -/
inductive Method where
  /-- Reduce the difference of hypothesis and conclusion to zero. -/
  | simplification
  /-- A base case and an inductive step. -/
  | induction
  /-- A contradiction from an assumption. -/
  | contradiction
  /-- A limit has an expected value. -/
  | limit
  /-- A derivative is an expected expression. -/
  | derivative
  /-- An integral is an expected expression. -/
  | integral
  deriving DecidableEq

namespace Method

/-- Every method, in the order in which they are listed. -/
def all : List Method :=
  [.simplification, .induction, .contradiction, .limit, .derivative, .integral]

/-- The name of a method. -/
def name : Method → String
  | .simplification => "simplification"
  | .induction => "induction"
  | .contradiction => "contradiction"
  | .limit => "limit"
  | .derivative => "derivative"
  | .integral => "integral"

/-- The words that describe a method on an obligation. -/
def label : Method → String
  | .simplification => "Symbolic simplification"
  | .induction => "Mathematical induction"
  | .contradiction => "Proof by contradiction"
  | .limit => "Limit computation"
  | .derivative => "Differentiation"
  | .integral => "Integration"

/-- The method of a name. -/
def ofName? (name : String) : Option Method := all.find? fun m => m.name == name

/-- Reads a method between white space; the error quotes the whole text. -/
def parse (text : String) : Except String Method :=
  match ofName? (Text.trim text) with
  | some m => .ok m
  | none => .error ("unknown proof method `" ++ text ++ "`")

end Method

/-- The state of an obligation. -/
inductive Status where
  /-- Not verified yet, or the last attempt decided nothing. -/
  | unknown
  | proven
  | refuted
  /-- Assumed without proof. -/
  | axiomatic
  deriving DecidableEq

namespace Status

/-- Every status, in the order in which they are listed. -/
def all : List Status := [.unknown, .proven, .refuted, .axiomatic]

/-- The name of a status. -/
def name : Status → String
  | .unknown => "unknown"
  | .proven => "proven"
  | .refuted => "refuted"
  | .axiomatic => "axiom"

/-- The status of a name. -/
def ofName? (name : String) : Option Status := all.find? fun s => s.name == name

/-- Is the status a definite one? -/
def isResolved (s : Status) : Bool := s ≠ .unknown

/-- A mark and the name in capitals. -/
def glyph : Status → String
  | .proven => "✓ PROVEN"
  | .refuted => "✗ REFUTED"
  | .unknown => "? UNKNOWN"
  | .axiomatic => "⊢ AXIOM"

end Status

/-- A proof obligation. -/
structure Obligation where
  name : String
  hypothesis : Claim
  conclusion : Claim
  /-- Words that name the intended method. -/
  methodLabel : String
  status : Status := .unknown
  /-- The steps of all attempts so far. -/
  steps : List String := []
  deriving DecidableEq

namespace Obligation

/-- The obligation with a function applied to both statements. -/
def mapClaims {ε : Type} (ob : Obligation) (f : Claim → Except ε Claim) : Except ε Obligation := do
  let hypothesis ← f ob.hypothesis
  let conclusion ← f ob.conclusion
  return { ob with hypothesis, conclusion }

/-- Sets the status and appends steps to the log. -/
def record (ob : Obligation) (status : Status) (steps : List String) : Obligation :=
  { ob with status, steps := ob.steps ++ steps }

/-- The obligation as a document. -/
def toJson (ob : Obligation) : Json :=
  .object [("name", .text ob.name), ("hypothesis", ob.hypothesis.toJson),
    ("conclusion", ob.conclusion.toJson), ("proof_method", .text ob.methodLabel),
    ("status", .text ob.status.name), ("proof_steps", Json.texts ob.steps)]

/-- Status, name, statements and steps, a line each. -/
def render (ob : Obligation) : String :=
  ob.status.glyph ++ " " ++ ob.name ++ "\n    " ++ ob.hypothesis.render ++ " => "
    ++ ob.conclusion.render ++ "\n" ++ String.join (ob.steps.map fun s => "      " ++ s ++ "\n")

end Obligation

end Discharge
