import Discharge.Catalog.Builtin
import Discharge.CommandLine.Arguments
import Discharge.Text.Quoted

/-!
The commands of the program.

`version` prints the version, `check` verifies one claim that is given on the
command line, and `verify` verifies a catalog and reports on it.  A run ends with
what is printed and possibly with an error; a check or a catalog that is not
proven is an error too.  Files are read and written through a `FileSystem`, so
that a run can be carried out on any model of it.
-/

namespace Discharge

/-! ## Commands -/

/-- A claim on the command line, as it is written there. -/
inductive ClaimText where
  /-- Both sides are equal. -/
  | simplify (lhs rhs : String)
  | limit (expression var point expected : String)
  | derivative (function var expected : String)
  /-- An integral, possibly between a lower and an upper bound. -/
  | integral (integrand var expected : String) (bounds : Option (String × String))
  deriving DecidableEq

/-- A command with its inputs. -/
inductive Command where
  | version (long : Bool)
  | check (policy : Option String) (claim : ClaimText)
  | verify (catalog policy : Option String) (json : Bool) (out : Option String)
  deriving DecidableEq

namespace Command

open CommandLine

/-- The form of the program itself. -/
def rootForm : Form := { switches := ["verbose"], commands := ["verify", "check", "version"] }

/-- The form of `version`. -/
def versionForm : Form := { switches := ["long", "verbose"] }

/-- The form of `verify`. -/
def verifyForm : Form where
  switches := ["json", "verbose"]
  options := [("catalog", .path), ("policy", .path), ("out", .path)]

/-- The form of `check`. -/
def checkForm : Form where
  switches := ["verbose"]
  options := [("policy", .path)]
  commands := ["simplify", "limit", "derivative", "integral"]

/-- The form of a claim.  Every expression may start with a hyphen, the name of a
variable may not. -/
def claimForm (operands : List Bool) (bounds : Bool) : Form where
  switches := ["verbose"]
  options := [("policy", .path)] ++
    if bounds then [("lower", .anyText), ("upper", .anyText)] else []
  operands := operands

/-- The bounds of an integral, of which both or none are given. -/
def bounds? (a : Arguments) : Option (Option (String × String)) :=
  match a.value? "lower", a.value? "upper" with
  | some lower, some upper => some (some (lower, upper))
  | none, none => some none
  | _, _ => none

/-- A claim of a kind from the words after it. -/
def claim? (kind : String) (words : List String) : Option (Arguments × ClaimText) := do
  match kind with
  | "simplify" =>
    let a ← (claimForm [true, true] false).readAll? words
    match a.operands with
    | [lhs, rhs] => some (a, .simplify lhs rhs)
    | _ => none
  | "limit" =>
    let a ← (claimForm [true, false, true, true] false).readAll? words
    match a.operands with
    | [expression, var, point, expected] => some (a, .limit expression var point expected)
    | _ => none
  | "derivative" =>
    let a ← (claimForm [true, false, true] false).readAll? words
    match a.operands with
    | [function, var, expected] => some (a, .derivative function var expected)
    | _ => none
  | "integral" =>
    let a ← (claimForm [true, false, true] true).readAll? words
    match a.operands with
    | [integrand, var, expected] => return (a, .integral integrand var expected (← bounds? a))
    | _ => none
  | _ => none

/-- Reads a command line; none if it is not understood.  A policy may be named
before or after the kind of a claim, and the later one counts. -/
def parse? (words : List String) : Option Command := do
  match ← rootForm.read? {} words with
  | (_, none) => none
  | (_, some (name, words)) =>
    match name with
    | "version" =>
      let a ← versionForm.readAll? words
      return .version (a.hasSwitch "long")
    | "verify" =>
      let a ← verifyForm.readAll? words
      return .verify (a.value? "catalog") (a.value? "policy") (a.hasSwitch "json") (a.value? "out")
    | "check" =>
      match ← checkForm.read? {} words with
      | (_, none) => none
      | (outer, some (kind, words)) =>
        let (inner, claim) ← claim? kind words
        return .check ((inner.value? "policy").or (outer.value? "policy")) claim
    | _ => none

end Command

/-! ## Errors -/

/-- Why a file operation failed, as the operating system tells. -/
structure FileError where
  code : Nat
  kind : String
  message : String
  deriving DecidableEq

namespace FileError

/-- There is no such file. -/
def notFound : FileError := ⟨2, "NotFound", "No such file or directory"⟩

/-- There is a file already. -/
def alreadyExists : FileError := ⟨17, "AlreadyExists", "File exists"⟩

/-- A file is needed as a directory. -/
def notADirectory : FileError := ⟨20, "NotADirectory", "Not a directory"⟩

/-- A directory is needed as a file. -/
def isADirectory : FileError := ⟨21, "IsADirectory", "Is a directory"⟩

/-- The error in words. -/
def reason (e : FileError) : String := e.message ++ " (os error " ++ toString e.code ++ ")"

end FileError

/-- Why a command failed. -/
inductive CommandError where
  | message (text : String)
  | expression (e : OracleError)
  | diagnostic (d : Diagnostic)
  | file (e : FileError)
  deriving DecidableEq

/-- The record of an error in braces, under a name. -/
def braced (name : String) (fields : List (String × String)) : String :=
  name ++ " \x7b " ++ ", ".intercalate (fields.map fun f => f.1 ++ ": " ++ f.2) ++ " \x7d"

/-- A symbolic failure with its parts spelled out. -/
def OracleError.detailed : OracleError → String
  | .parse offset problem =>
    braced "Parse" [("offset", toString offset), ("message", Text.quoted problem)]
  | .divisionByZero place => braced "DivisionByZero" [("context", Text.quoted place)]
  | .unsupported what => "Unsupported(" ++ Text.quoted what ++ ")"
  | .divergent what => "Divergent(" ++ Text.quoted what ++ ")"
  | .indeterminate what => "Indeterminate(" ++ Text.quoted what ++ ")"
  | .tooLarge what => "TooLarge(" ++ Text.quoted what ++ ")"

/-- A diagnostic with its parts spelled out. -/
def Diagnostic.detailed (d : Diagnostic) : String :=
  let context := ", ".intercalate
    (d.context.entries.map fun e => Text.quoted e.1 ++ ": " ++ Text.quoted e.2)
  let hint := match d.hint with
    | none => "None"
    | some h => "Some(" ++ Text.quoted h ++ ")"
  d.family.name ++ "(" ++ braced "ErrorInfo" [("code", Text.quoted d.code),
    ("message", Text.quoted d.message), ("context", "\x7b" ++ context ++ "\x7d"), ("hint", hint)]
    ++ ")"

/-- The error with its parts spelled out. -/
def CommandError.detailed : CommandError → String
  | .message text => Text.quoted text
  | .expression e => e.detailed
  | .diagnostic d => d.detailed
  | .file e => braced "Os" [("code", toString e.code), ("kind", e.kind),
      ("message", Text.quoted e.message)]

/-- The diagnostic of a text that is no policy. -/
def Policy.malformed : Diagnostic :=
  { family := .encoding, code := "policy-yaml", message := "the text is not a policy" }

/-! ## Runs -/

/-- How files are read and written. -/
structure FileSystem (m : Type → Type) where
  load : String → m (Except FileError String)
  /-- Creates a directory and those it is in, as far as they are missing. -/
  makeDirectory : String → m (Except FileError Unit)
  /-- Writes a file of a name in a directory. -/
  store (directory name content : String) : m (Except FileError Unit)

/-- What a run has printed, and the error it ended with. -/
structure RunResult where
  printed : String
  error : Option CommandError := none
  deriving DecidableEq

/-- A claim on the command line with its strategy. -/
def ClaimText.task : ClaimText → Except OracleError (Obligation × Strategy)
  | .simplify lhs rhs => do
    let lhs ← Expr.parse lhs
    let rhs ← Expr.parse rhs
    return ({ name := "check", hypothesis := .expr lhs, conclusion := .expr rhs,
              methodLabel := "simplification" }, .simplification)
  | .limit expression var point expected => do
    let expression ← Expr.parse expression
    let expected ← Expr.parse expected
    let point ← LimitPoint.parse point
    let hypothesis := "lim " ++ var ++ " -> " ++ point.render ++ " of " ++ expression.render
    return ({ name := "check", hypothesis := .text hypothesis, conclusion := .expr expected,
              methodLabel := "limit" }, .limit expression var point expected)
  | .derivative function var expected => do
    let function ← Expr.parse function
    let expected ← Expr.parse expected
    let hypothesis := "d/d" ++ var ++ " " ++ function.render
    return ({ name := "check", hypothesis := .text hypothesis, conclusion := .expr expected,
              methodLabel := "derivative" }, .derivative function var expected)
  | .integral integrand var expected bounds => do
    let integrand ← Expr.parse integrand
    let expected ← Expr.parse expected
    let bounds ← match bounds with
      | none => pure none
      | some (lower, upper) => do
        let lower ← LimitPoint.parse lower
        let upper ← LimitPoint.parse upper
        pure (some (Interval.mk lower upper))
    let hypothesis := "integral of " ++ integrand.render ++ " d" ++ var
    return ({ name := "check", hypothesis := .text hypothesis, conclusion := .expr expected,
              methodLabel := "integral" }, .integral integrand var bounds expected)

/-- Verifies a claim of the command line under a policy. -/
def ClaimText.check (claim : ClaimText) (policy : Policy) : Except CommandError RunResult := do
  let (ob, strategy) ← claim.task.mapError .expression
  let ob := (strategy.run (Oracle.exact policy.guards) ob).obligation
  return { printed := ob.render
           error := if ob.status = .proven then none
             else some (.message ("claim is " ++ ob.status.name)) }

/-- What `version` prints. -/
def Command.versionText (long : Bool) : String :=
  if long then
    (Json.object [("version", .text programVersion), ("schema", ({} : SchemaVersion).toJson),
      ("strategies", Json.texts (Method.all.map Method.name))]).canonicalText ++ "\n"
  else programVersion ++ "\n"

/-- What a report prints and how it ends. -/
def Report.result (r : Report) (json : Bool) : RunResult where
  printed := if json then r.toJson.canonicalText ++ "\n" else r.render
  error := if r.allProven then none
    else some (.message (toString (r.summary.total - r.summary.proven) ++ " of "
      ++ toString r.summary.total ++ " obligations not proven"))

namespace Command

variable {m : Type → Type} [Monad m]

/-- The policy of a file, or the usual one. -/
def loadPolicy (fs : FileSystem m) : Option String → ExceptT CommandError m Policy
  | none => return {}
  | some path => do
    match ← fs.load path with
    | .error e => throw (.file e)
    | .ok text => match Policy.parse? text with
      | some policy => return policy
      | none => throw (.diagnostic Policy.malformed)

/-- The catalog of a file, or the built-in one. -/
def loadCatalog (fs : FileSystem m) (path : Option String) : ExceptT CommandError m Catalog := do
  let catalog ← match path with
    | none => pure Catalog.builtin
    | some path => do
      match ← fs.load path with
      | .error e => pure (.error (.unreadable path e.reason))
      | .ok text => pure (Catalog.parse text)
  liftExcept (catalog.mapError fun e => CommandError.diagnostic e.diagnostic)

/-- Writes a report into a directory. -/
def writeReport (fs : FileSystem m) (r : Report) (directory : String) :
    ExceptT CommandError m Unit := do
  let done (result : Except FileError Unit) : ExceptT CommandError m Unit :=
    liftExcept (result.mapError CommandError.file)
  done (← fs.makeDirectory directory)
  done (← fs.store directory "report.json" r.toJson.prettyText)
  done (← fs.store directory "report.txt" r.render)

/-- Carries out a command. -/
def perform (fs : FileSystem m) : Command → ExceptT CommandError m RunResult
  | .version long => return { printed := versionText long }
  | .check policy claim => do
    let policy ← loadPolicy fs policy
    liftExcept (claim.check policy)
  | .verify catalog policy json out => do
    let policy ← loadPolicy fs policy
    let catalog ← loadCatalog fs catalog
    let report ← liftExcept ((catalog.report policy).mapError fun e =>
      CommandError.diagnostic e.diagnostic)
    match out with
    | none => pure ()
    | some directory => writeReport fs report directory
    return report.result json

/-- Carries out a command; an error before anything is printed ends the run. -/
def run (fs : FileSystem m) (command : Command) : m RunResult := do
  match ← (perform fs command).run with
  | .ok result => return result
  | .error e => return { printed := "", error := some e }

end Command

end Discharge
