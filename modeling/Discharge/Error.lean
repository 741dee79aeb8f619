/-!
Why an expression could not be read or computed with.

An operation that fails reports an error.  Where its integers leave the range of
the machine, or it divides by zero, it is abandoned instead.
-/

namespace Discharge

/-- A failure of reading an expression or of a symbolic operation. -/
inductive OracleError where
  /-- The text is not an expression; `offset` counts bytes. -/
  | parse (offset : Nat) (problem : String)
  /-- A denominator normalised to zero. -/
  | divisionByZero (place : String)
  /-- The operation is outside what the normal form can decide. -/
  | unsupported (what : String)
  /-- A limit or definite integral that does not exist or is infinite. -/
  | divergent (what : String)
  /-- A limit whose dominant behaviour could not be decided. -/
  | indeterminate (what : String)
  /-- A size guard was exceeded. -/
  | tooLarge (what : String)
  deriving DecidableEq

namespace OracleError

/-- A stable code for the kind of failure. -/
def code : OracleError → String
  | .parse .. => "parse"
  | .divisionByZero _ => "division-by-zero"
  | .unsupported _ => "unsupported"
  | .divergent _ => "divergent"
  | .indeterminate _ => "indeterminate"
  | .tooLarge _ => "too-large"

/-- The failure in words. -/
def message : OracleError → String
  | .parse offset problem => "parse error at offset " ++ toString offset ++ ": " ++ problem
  | .divisionByZero place => "division by zero in " ++ place
  | .unsupported what => "unsupported: " ++ what
  | .divergent what => "diverges: " ++ what
  | .indeterminate what => "indeterminate limit: " ++ what
  | .tooLarge what => "expression too large: " ++ what

/-- The failure of a given code that holds `text`; a parse failure is put at offset 0. -/
def ofCode? (code text : String) : Option OracleError :=
  match code with
  | "parse" => some (.parse 0 text)
  | "division-by-zero" => some (.divisionByZero text)
  | "unsupported" => some (.unsupported text)
  | "divergent" => some (.divergent text)
  | "indeterminate" => some (.indeterminate text)
  | "too-large" => some (.tooLarge text)
  | _ => none

end OracleError

/-- Why an operation gave no answer. -/
inductive Failure where
  /-- The operation reported an error. -/
  | error (e : OracleError)
  /-- The operation was abandoned, with a message if there is one. -/
  | crash (message : Option String)
  deriving DecidableEq

namespace Failure

/-- A denominator normalised to zero. -/
@[match_pattern] abbrev divisionByZero (place : String) : Failure := .error (.divisionByZero place)

/-- The operation is outside what the normal form can decide. -/
@[match_pattern] abbrev unsupported (what : String) : Failure := .error (.unsupported what)

/-- A limit or definite integral that does not exist or is infinite. -/
@[match_pattern] abbrev divergent (what : String) : Failure := .error (.divergent what)

/-- A limit whose dominant behaviour could not be decided. -/
@[match_pattern] abbrev indeterminate (what : String) : Failure := .error (.indeterminate what)

/-- A size guard was exceeded. -/
@[match_pattern] abbrev tooLarge (what : String) : Failure := .error (.tooLarge what)

/-- A machine integer came out of its range. -/
def overflow (operation : String) : Failure :=
  .crash (some ("attempt to " ++ operation ++ " with overflow"))

/-- A rational was given the denominator zero. -/
def zeroDenominator : Failure := .crash (some "denominator == 0")

end Failure

/-- An answer, an error, or an abandoned computation. -/
abbrev Outcome := Except Failure

/-- An operation that is never abandoned. -/
def Outcome.ofExcept {α : Type} (r : Except OracleError α) : Outcome α := r.mapError .error

end Discharge
