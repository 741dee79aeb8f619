import Discharge.Strategy

/-!
Attempts: runs of a strategy on an obligation.

Every attempt is contained: a fault or an abandoned computation leaves the
obligation undecided, with the reason as its last step.  An observer is told of
the start, of a fault, of every step, and of the end, in this order.
-/

namespace Discharge

/-- What an observer is told about the obligation of a name. -/
inductive Event where
  | started (name : String) (method : Method)
  | fault (name message : String)
  | step (name text : String)
  | finished (name : String) (status : Status)
  deriving DecidableEq

/-- The reason for stopping, as a step. -/
def Stop.message (method : Method) : Stop → String
  | .fault f => "error: " ++ f.message
  | .crash m => "error: " ++ method.name ++ " attempt panicked: "
      ++ m.getD "non-string panic payload"

/-- One attempt: the obligation after it, the steps it added and what an
observer was told. -/
structure Attempt where
  obligation : Obligation
  steps : List String
  events : List Event

/-- Did the attempt prove the obligation? -/
def Attempt.proven (a : Attempt) : Bool := a.obligation.status = .proven

/-- Runs a strategy on an obligation. -/
def Strategy.run (s : Strategy) (oracle : Oracle) (ob : Obligation) : Attempt :=
  let (result, trail) := (s.attempt oracle ob).start
  let (status, faults) := match result with
    | .ok verdict => (verdict.status, [])
    | .error stop => (.unknown, [stop.message s.method])
  let steps := trail ++ faults
  { obligation := ob.record status steps
    steps
    events := .started ob.name s.method :: faults.map (.fault ob.name)
      ++ steps.map (.step ob.name) ++ [.finished ob.name status] }

end Discharge
