import Discharge.Decode
import Discharge.Plan

/-!
Catalogs: axioms, definitions and obligations to be verified in one run.

A catalog is registered in a new theory, and then each of its obligations is
verified, in the order of the catalog.  Under a policy that expands definitions
they are put into the inputs of every plan as well as into the statements.
-/

namespace Discharge

/-- An axiom of a catalog. -/
structure AxiomSpec where
  name : String
  statement : String
  deriving DecidableEq

/-- A definition of a catalog. -/
structure DefinitionSpec where
  name : String
  expression : Expr
  deriving DecidableEq

/-- An obligation of a catalog. -/
structure ObligationSpec where
  name : String
  kind : Kind
  hypothesis : String
  conclusion : String
  plan : Plan
  deriving DecidableEq

/-- What is to be registered and verified. -/
structure Catalog where
  axioms : List AxiomSpec := []
  definitions : List DefinitionSpec := []
  obligations : List ObligationSpec := []
  deriving DecidableEq

/-- Why a catalog cannot be verified. -/
inductive CatalogError where
  /-- The file cannot be read, for the given reason. -/
  | unreadable (path reason : String)
  /-- The text is no catalog. -/
  | malformed
  /-- Only one bound is given for the integral of an obligation. -/
  | halfOpenBounds (obligation : String)
  /-- An entry is refused. -/
  | refused (e : TheoryError)
  deriving DecidableEq

/-- The error in words. -/
def CatalogError.diagnostic : CatalogError → Diagnostic
  | .unreadable path reason =>
    ({ family := .catalog, code := "catalog-read", message := reason } : Diagnostic)
      |>.withContext "path" path
  | .malformed =>
    { family := .catalog, code := "catalog-yaml", message := "the text is not a catalog" }
  | .halfOpenBounds obligation =>
    ({ family := .catalog, code := "half-open-bounds",
       message := "integral bounds need both `lower` and `upper`" } : Diagnostic)
      |>.withContext "obligation" obligation
  | .refused e => e.diagnostic

/-! ## Documents -/

/-- The axiom as a document. -/
def AxiomSpec.toJson (a : AxiomSpec) : Json :=
  .object [("name", .text a.name), ("statement", .text a.statement)]

/-- The definition as a document. -/
def DefinitionSpec.toJson (d : DefinitionSpec) : Json :=
  .object [("name", .text d.name), ("expression", .text d.expression.render)]

/-- The obligation as a document. -/
def ObligationSpec.toJson (o : ObligationSpec) : Json :=
  .object [("name", .text o.name), ("kind", .text o.kind.name), ("hypothesis", .text o.hypothesis),
    ("conclusion", .text o.conclusion), ("proof", o.plan.toJson)]

/-- The catalog as a document. -/
def Catalog.toJson (c : Catalog) : Json :=
  .object [("axioms", .array (c.axioms.map AxiomSpec.toJson)),
    ("definitions", .array (c.definitions.map DefinitionSpec.toJson)),
    ("obligations", .array (c.obligations.map ObligationSpec.toJson))]

/-- The inputs of a plan for a method. -/
def Plan.ofInputs? (method : Method) (inputs : Datum) : Option Plan := do
  let text := Datum.required Datum.text?
  let expr := Datum.required Expr.ofDatum?
  match method with
  | .simplification =>
    match inputs with
    | .mapping _ | .sequence [] => some .simplification
    | _ => none
  | .induction =>
    match ← inputs.record? ["variable", "term", "closed_form", "start"] true with
    | [var, term, closedForm, start] =>
      return .induction { var := ← text var, term := ← expr term, closedForm := ← expr closedForm
                          start := ← Datum.orDefault 0 Datum.int64? start }
    | _ => none
  | .contradiction =>
    match ← inputs.record? ["assumption"] true with
    | [assumption] => return .contradiction (← text assumption)
    | _ => none
  | .limit =>
    match ← inputs.record? ["expression", "variable", "point", "expected"] true with
    | [expression, var, point, expected] =>
      return .limit (← expr expression) (← text var)
        (← Datum.required LimitPoint.ofDatum? point) (← expr expected)
    | _ => none
  | .derivative =>
    match ← inputs.record? ["function", "variable", "expected"] true with
    | [function, var, expected] =>
      return .derivative (← expr function) (← text var) (← expr expected)
    | _ => none
  | .integral =>
    match ← inputs.record? ["integrand", "variable", "lower", "upper", "expected"] true with
    | [integrand, var, lower, upper, expected] =>
      let bound := Datum.optional LimitPoint.ofDatum?
      return .integral (← expr integrand) (← text var) (← bound lower) (← bound upper)
        (← expr expected)
    | _ => none

/-- A plan names its method.  Its inputs are taken as a whole, three containers
deep in a catalog, before they are read. -/
def Plan.ofDatum? : Reads Plan := fun dialect d =>
  let read (tag inputs : Datum) : Option Plan := do
    let method ← tag.text?.bind Method.ofName?
    Plan.ofInputs? method (← inputs.settled? (dialect.maxDepth - 3))
  match d with
  | .mapping entries => do
    let (tag, others) ← Datum.tagged? "method" entries
    read tag (.mapping others)
  | .sequence (tag :: others) => read tag (.sequence others)
  | _ => none

/-- An axiom has a name and a statement. -/
def AxiomSpec.ofDatum? : Reads AxiomSpec := fun dialect d => do
  match ← d.record? ["name", "statement"] dialect.positional with
  | [name, statement] =>
    return { name := ← Datum.required Datum.text? name
             statement := ← Datum.required Datum.text? statement }
  | _ => none

/-- A definition has a name and an expression. -/
def DefinitionSpec.ofDatum? : Reads DefinitionSpec := fun dialect d => do
  match ← d.record? ["name", "expression"] dialect.positional with
  | [name, expression] =>
    return { name := ← Datum.required Datum.text? name
             expression := ← Datum.required Expr.ofDatum? expression }
  | _ => none

/-- An obligation has all its fields. -/
def ObligationSpec.ofDatum? : Reads ObligationSpec := fun dialect d => do
  match ← d.record? ["name", "kind", "hypothesis", "conclusion", "proof"] dialect.positional with
  | [name, kind, hypothesis, conclusion, plan] =>
    return { name := ← Datum.required Datum.text? name
             kind := ← Datum.required (Datum.oneOf? Kind.ofName? dialect) kind
             hypothesis := ← Datum.required Datum.text? hypothesis
             conclusion := ← Datum.required Datum.text? conclusion
             plan := ← Datum.required (Plan.ofDatum? dialect) plan }
  | _ => none

namespace Catalog

/-- A catalog; each of its lists may be left out. -/
def ofDatum? : Reads Catalog := fun dialect d => do
  match ← d.record? ["axioms", "definitions", "obligations"] dialect.positional with
  | [axioms, definitions, obligations] =>
    return { axioms := ← Datum.orDefault [] (Datum.list? (AxiomSpec.ofDatum? dialect)) axioms
             definitions :=
               ← Datum.orDefault [] (Datum.list? (DefinitionSpec.ofDatum? dialect)) definitions
             obligations :=
               ← Datum.orDefault [] (Datum.list? (ObligationSpec.ofDatum? dialect)) obligations }
  | _ => none

/-- The first obligation for whose integral only one bound is given. -/
def halfOpen? (c : Catalog) : Option ObligationSpec :=
  c.obligations.find? fun o => o.plan.strategy?.isNone

/-- How far reading a catalog looks into a document. -/
def extent : Yaml.Extent :=
  .record [("axioms", .list (.record [("name", .whole), ("statement", .whole)])),
    ("definitions", .list (.record [("name", .whole), ("expression", .whole)])),
    ("obligations", .list (.record [("name", .whole), ("kind", .whole), ("hypothesis", .whole),
      ("conclusion", .whole), ("proof", .whole)]))]

/-- Reads a catalog from YAML text. -/
def parse (text : String) : Except CatalogError Catalog :=
  match (Yaml.read? extent text).bind (ofDatum? .yaml) with
  | none => .error .malformed
  | some c =>
    match c.halfOpen? with
    | some o => .error (.halfOpenBounds o.name)
    | none => .ok c

/-! ## Verification -/

/-- The obligation to be registered for an entry. -/
def obligationOf (o : ObligationSpec) : Obligation where
  name := o.name
  hypothesis := Claim.parse o.hypothesis
  conclusion := Claim.parse o.conclusion
  methodLabel := o.plan.method.label

/-- Registers all entries in a new theory. -/
def register (c : Catalog) (duplicates : Duplicates) : Except TheoryError Theory := do
  let t ← c.axioms.foldlM (fun t a => t.addAxiom a.name (Claim.parse a.statement))
    ({ duplicates } : Theory)
  let t ← c.definitions.foldlM (fun t d => t.addDefinition d.name d.expression) t
  c.obligations.foldlM (fun t o => t.addObligation o.kind (obligationOf o)) t

/-- Verifies a registered entry. -/
def verifyEntry (oracle : Oracle) (expand : Bool) (t : Theory) (o : ObligationSpec) :
    Except CatalogError Theory := do
  let plan ← (if expand then o.plan.expand t else .ok o.plan).mapError .refused
  match plan.strategy? with
  | none => .error (.halfOpenBounds o.name)
  | some strategy =>
    let (t, _) ← (t.verify o.kind o.name expand strategy oracle).mapError .refused
    return t

/-- Registers all entries and verifies the obligations in their order. -/
def verify (c : Catalog) (oracle : Oracle) (policy : Policy) : Except CatalogError Theory := do
  let t ← (c.register policy.duplicates).mapError .refused
  c.obligations.foldlM (verifyEntry oracle policy.expandDefinitions) t

/-- The report of a run with the built-in oracle. -/
def report (c : Catalog) (policy : Policy) : Except CatalogError Report := do
  let t ← c.verify (Oracle.exact policy.guards) policy
  let provenance := Provenance.ofRun c.toJson.address policy.toJson.address
  return Report.ofTheory t (provenance.withTool "qed-cli" programVersion)

end Catalog

end Discharge
