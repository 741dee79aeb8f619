import Discharge.Calculus.Limit
import Discharge.Document.Json

/-!
Policies: what may be configured about a verification run.
-/

namespace Discharge

/-- What happens when a name is registered twice. -/
inductive Duplicates where
  /-- The second registration fails. -/
  | reject
  /-- The second registration replaces the first. -/
  | overwrite
  deriving DecidableEq

namespace Duplicates

/-- The name of a rule. -/
def name : Duplicates → String
  | .reject => "reject"
  | .overwrite => "overwrite"

/-- The rule of a name. -/
def ofName? : String → Option Duplicates
  | "reject" => some .reject
  | "overwrite" => some .overwrite
  | _ => none

end Duplicates

/-- The guards as a document. -/
def Guards.toJson (g : Guards) : Json :=
  .object [("lhopital_depth", .integer g.rounds), ("max_power", .integer g.maxPower)]

/-- The policy of a verification run. -/
structure Policy where
  duplicates : Duplicates := .reject
  /-- The guards of the built-in oracle. -/
  guards : Guards := {}
  /-- Are definitions put into claims before they are verified? -/
  expandDefinitions : Bool := true
  deriving DecidableEq

/-- The policy as a document. -/
def Policy.toJson (p : Policy) : Json :=
  .object [("duplicates", .text p.duplicates.name), ("oracle", p.guards.toJson),
    ("expand_definitions", .bool p.expandDefinitions)]

end Discharge
