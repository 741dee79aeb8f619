import Discharge.Document.Json.Reader
import Discharge.Document.Record
import Discharge.Document.Yaml
import Discharge.Report

/-!
Reading the library's values back from documents.

Every `ofDatum?` accepts what the matching `toJson` writes, and the looser forms
that `Datum.record?` and `Datum.oneOf?` allow.
-/

namespace Discharge

/-- An expression is its text or a number.  A floating point number is read
through its decimal text. -/
def Expr.ofDatum? (d : Datum) : Option Expr :=
  match d.resolved with
  | .text s => (Expr.parse s).toOption
  | .integer n => some (Expr.int n)
  | .float x => (Expr.parse (Decimal.plainText x)).toOption
  | _ => none

/-- A point is its text or an integer. -/
def LimitPoint.ofDatum? (d : Datum) : Option LimitPoint :=
  match d.resolved with
  | .text s => (LimitPoint.parse s).toOption
  | .integer n => some (.finite (Expr.int n))
  | _ => none

/-- The interval as a document. -/
def Interval.toJson (i : Interval) : Json :=
  .object [("lower", .text i.lower.render), ("upper", .text i.upper.render)]

/-- An interval has both ends. -/
def Interval.ofDatum? : Reads Interval := fun dialect d => do
  match ← d.record? ["lower", "upper"] dialect.positional with
  | [lower, upper] =>
    return { lower := ← Datum.required LimitPoint.ofDatum? lower
             upper := ← Datum.required LimitPoint.ofDatum? upper }
  | _ => none

/-- A statement is a mapping from its form to its content. -/
def Claim.ofDatum? : Reads Claim := fun dialect d =>
  match d with
  | .mapping [(.text "expr", value)] => (Expr.ofDatum? value).map .expr
  | .mapping [(.text "equation", value)] => do
    match ← value.record? ["lhs", "rhs"] dialect.positional with
    | [lhs, rhs] =>
      return .equation (← Datum.required Expr.ofDatum? lhs) (← Datum.required Expr.ofDatum? rhs)
    | _ => none
  | .mapping [(.text "text", value)] => value.text?.map .text
  | _ => none

/-- An axiom has a name and a statement. -/
def Axiom.ofDatum? : Reads Axiom := fun dialect d => do
  match ← d.record? ["name", "statement"] dialect.positional with
  | [name, statement] =>
    return { name := ← Datum.required Datum.text? name
             statement := ← Datum.required (Claim.ofDatum? dialect) statement }
  | _ => none

/-- An obligation; status and steps may be left out of a new one. -/
def Obligation.ofDatum? : Reads Obligation := fun dialect d => do
  match ← d.record? ["name", "hypothesis", "conclusion", "proof_method", "status", "proof_steps"]
      dialect.positional with
  | [name, hypothesis, conclusion, method, status, steps] =>
    return { name := ← Datum.required Datum.text? name
             hypothesis := ← Datum.required (Claim.ofDatum? dialect) hypothesis
             conclusion := ← Datum.required (Claim.ofDatum? dialect) conclusion
             methodLabel := ← Datum.required Datum.text? method
             status := ← Datum.orDefault .unknown (Datum.oneOf? Status.ofName? dialect) status
             steps := ← Datum.orDefault [] (Datum.list? Datum.text?) steps }
  | _ => none

/-- A theory; all its registries have to be there. -/
def Theory.ofDatum? : Reads Theory := fun dialect d => do
  match ← d.record? ["duplicates", "axioms", "definitions", "lemmas", "theorems", "corollaries"]
      dialect.positional with
  | [duplicates, axioms, definitions, lemmas, theorems, corollaries] =>
    let obligations := Datum.required (Datum.table? (Obligation.ofDatum? dialect))
    return { duplicates := ← Datum.required (Datum.oneOf? Duplicates.ofName? dialect) duplicates
             axioms := ← Datum.required (Datum.table? (Axiom.ofDatum? dialect)) axioms
             definitions := ← Datum.required (Datum.table? Expr.ofDatum?) definitions
             lemmas := ← obligations lemmas
             theorems := ← obligations theorems
             corollaries := ← obligations corollaries }
  | _ => none

/-- The guards; each has a default. -/
def Guards.ofDatum? : Reads Guards := fun dialect d => do
  match ← d.record? ["lhopital_depth", "max_power"] dialect.positional with
  | [rounds, maxPower] =>
    let usual : Guards := {}
    return { rounds := ← Datum.orDefault usual.rounds (Datum.word? 32) rounds
             maxPower := ← Datum.orDefault usual.maxPower (Datum.word? 32) maxPower }
  | _ => none

/-- A policy; each of its fields has a default. -/
def Policy.ofDatum? : Reads Policy := fun dialect d => do
  match ← d.record? ["duplicates", "oracle", "expand_definitions"] dialect.positional with
  | [duplicates, guards, expand] =>
    let usual : Policy := {}
    return { duplicates :=
               ← Datum.orDefault usual.duplicates (Datum.oneOf? Duplicates.ofName? dialect) duplicates
             guards := ← Datum.orDefault usual.guards (Guards.ofDatum? dialect) guards
             expandDefinitions := ← Datum.orDefault usual.expandDefinitions Datum.bool? expand }
  | _ => none

/-- How far reading a policy looks into a document. -/
def Policy.extent : Yaml.Extent :=
  .record [("duplicates", .whole), ("expand_definitions", .whole),
    ("oracle", .record [("lhopital_depth", .whole), ("max_power", .whole)])]

/-- Reads a policy from YAML text. -/
def Policy.parse? (text : String) : Option Policy :=
  (Yaml.read? Policy.extent text).bind (Policy.ofDatum? .yaml)

/-- A version has three numbers. -/
def SchemaVersion.ofDatum? : Reads SchemaVersion := fun dialect d => do
  match ← d.record? ["major", "minor", "patch"] dialect.positional with
  | [major, minor, patch] =>
    return { major := ← Datum.required (Datum.word? 32) major
             minor := ← Datum.required (Datum.word? 32) minor
             patch := ← Datum.required (Datum.word? 32) patch }
  | _ => none

/-- A provenance has all its fields. -/
def Provenance.ofDatum? : Reads Provenance := fun dialect d => do
  match ← d.record? ["schema", "input_hash", "policy_hash", "tool_versions"] dialect.positional with
  | [schema, inputHash, policyHash, toolVersions] =>
    return { schema := ← Datum.required (SchemaVersion.ofDatum? dialect) schema
             inputHash := ← Datum.required Datum.text? inputHash
             policyHash := ← Datum.required Datum.text? policyHash
             toolVersions := ← Datum.required (Datum.table? Datum.text?) toolVersions }
  | _ => none

/-- An axiom in a report. -/
def AxiomEntry.ofDatum? : Reads AxiomEntry := fun dialect d => do
  match ← d.record? ["name", "statement"] dialect.positional with
  | [name, statement] =>
    return { name := ← Datum.required Datum.text? name
             statement := ← Datum.required Datum.text? statement }
  | _ => none

/-- An obligation in a report. -/
def ReportEntry.ofDatum? : Reads ReportEntry := fun dialect d => do
  match ← d.record? ["kind", "name", "hypothesis", "conclusion", "proof_method", "status",
      "proof_steps"] dialect.positional with
  | [kind, name, hypothesis, conclusion, method, status, steps] =>
    return { kind := ← Datum.required (Datum.oneOf? Kind.ofName? dialect) kind
             name := ← Datum.required Datum.text? name
             hypothesis := ← Datum.required Datum.text? hypothesis
             conclusion := ← Datum.required Datum.text? conclusion
             methodLabel := ← Datum.required Datum.text? method
             status := ← Datum.required (Datum.oneOf? Status.ofName? dialect) status
             steps := ← Datum.required (Datum.list? Datum.text?) steps }
  | _ => none

/-- The counts of a report, as they are given. -/
def Summary.ofDatum? : Reads Summary := fun dialect d => do
  match ← d.record? ["proven", "refuted", "unknown", "axioms", "total", "success_rate"]
      dialect.positional with
  | [proven, refuted, unknown, axioms, total, successRate] =>
    let count := Datum.required (Datum.word? 64)
    return { proven := ← count proven
             refuted := ← count refuted
             unknown := ← count unknown
             axioms := ← count axioms
             total := ← count total
             successRate := ← Datum.required Datum.float? successRate }
  | _ => none

/-- A report; its content address is taken as it is given. -/
def Report.ofDatum? : Reads Report := fun dialect d => do
  match ← d.record? ["report_hash", "axioms", "entries", "summary", "provenance"]
      dialect.positional with
  | [hash, axioms, entries, summary, provenance] =>
    return { hash := ← Datum.required Datum.text? hash
             axioms := ← Datum.required (Datum.list? (AxiomEntry.ofDatum? dialect)) axioms
             entries := ← Datum.required (Datum.list? (ReportEntry.ofDatum? dialect)) entries
             summary := ← Datum.required (Summary.ofDatum? dialect) summary
             provenance := ← Datum.required (Provenance.ofDatum? dialect) provenance }
  | _ => none

namespace Diagnostic

/-- The content of a diagnostic of a known family.  The hint can only be left out
of a mapping. -/
def detail? (family : Family) : Reads Diagnostic := fun dialect d => do
  match ← d.fullRecord? ["code", "message", "context", "hint"] dialect.positional with
  | [code, message, context, hint] =>
    return { family
             code := ← Datum.required Datum.text? code
             message := ← Datum.required Datum.text? message
             context := ← Datum.orDefault ∅ (Datum.table? Datum.text?) context
             hint := ← Datum.optional Datum.text? hint }
  | _ => none

/-- Is this an entry that a diagnostic has? -/
def isOwnEntry (entry : Datum × Datum) : Bool :=
  entry.1.text? = some "family" || entry.1.text? = some "detail"

/-- A diagnostic has a family and a detail.  A detail in front of its family is
taken as a whole before it is read. -/
def ofDatum? : Reads Diagnostic := fun dialect d =>
  let family? := Datum.oneOf? Family.ofName? dialect
  match d with
  | .mapping entries => do
    if entries.any fun e => e.1.text?.isNone then none
    match entries.filter isOwnEntry with
    | [(first, a), (second, b)] =>
      if first.text? = some "family" ∧ second.text? = some "detail" then
        detail? (← family? a) dialect b
      else if first.text? = some "detail" ∧ second.text? = some "family" then
        detail? (← family? b) dialect (← a.settled? (dialect.maxDepth - 1))
      else none
    | _ => none
  | .sequence [family, detail] => do detail? (← family? family) dialect detail
  | _ => none

end Diagnostic

end Discharge
