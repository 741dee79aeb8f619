import Discharge.Document.Json
import Discharge.Expr.Parser

/-!
Diagnostics: what is reported to a user when something cannot be done.

A diagnostic belongs to a family and carries a stable code, a message, context
entries in order of their keys, and possibly a hint.
-/

namespace Discharge

/-- Where a diagnostic comes from. -/
inductive Family where
  /-- Text that could not be parsed. -/
  | parse
  /-- A symbolic operation that failed. -/
  | symbolic
  /-- A violation of the rules of a theory's registries. -/
  | registry
  /-- A catalog that cannot be loaded or is not valid. -/
  | catalog
  /-- A document that cannot be written or read. -/
  | encoding
  deriving DecidableEq

namespace Family

/-- The name in documents. -/
def name : Family → String
  | .parse => "Parse"
  | .symbolic => "Symbolic"
  | .registry => "Registry"
  | .catalog => "Catalog"
  | .encoding => "Serde"

/-- The family of a name. -/
def ofName? : String → Option Family
  | "Parse" => some .parse
  | "Symbolic" => some .symbolic
  | "Registry" => some .registry
  | "Catalog" => some .catalog
  | "Serde" => some .encoding
  | _ => none

/-- The words a message starts with. -/
def label : Family → String
  | .parse => "parse error"
  | .symbolic => "symbolic error"
  | .registry => "registry error"
  | .catalog => "catalog error"
  | .encoding => "serde error"

end Family

/-- A diagnostic. -/
structure Diagnostic where
  family : Family
  code : String
  message : String
  context : Table String := ∅
  hint : Option String := none
  deriving DecidableEq

namespace Diagnostic

/-- Adds a context entry. -/
def withContext (d : Diagnostic) (key value : String) : Diagnostic :=
  { d with context := d.context.insert key value }

/-- Sets the hint. -/
def withHint (d : Diagnostic) (hint : String) : Diagnostic := { d with hint := some hint }

/-- The message with code, context and hint on one line. -/
def render (d : Diagnostic) : String :=
  let context := match d.context.entries with
    | [] => ""
    | entries => " | context: [" ++ ", ".intercalate (entries.map fun e => e.1 ++ "=" ++ e.2) ++ "]"
  let hint := match d.hint with
    | none => ""
    | some h => " | hint: " ++ h
  d.family.label ++ ": " ++ d.message ++ " (code: " ++ d.code ++ ")" ++ context ++ hint

/-- The diagnostic as a document. -/
def toJson (d : Diagnostic) : Json :=
  let hint := match d.hint with
    | none => []
    | some h => [("hint", Json.text h)]
  .object [("family", .text d.family.name),
    ("detail", .object ([("code", .text d.code), ("message", .text d.message),
      ("context", d.context.toJson .text)] ++ hint))]

/-- The diagnostic of a symbolic failure; a parse failure names its offset. -/
def ofOracleError (e : OracleError) : Diagnostic :=
  match e with
  | .parse offset _ =>
    (Diagnostic.mk .parse e.code e.message ∅ none).withContext "offset" (toString offset)
  | _ => { family := .symbolic, code := e.code, message := e.message }

end Diagnostic

end Discharge
