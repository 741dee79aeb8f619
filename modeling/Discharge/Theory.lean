import Discharge.Attempt
import Discharge.Diagnostic
import Discharge.Policy

/-!
Theories: axioms, definitions and obligations, each kept by name.

The registries are independent of each other.  A name that is already there is
refused or replaced, as the theory's rule for duplicates says.  Definitions may
refer to each other; expanding an expression puts them in until no defined name
is left, and reports a cycle when there is always one left.

Obligations are verified in place.  With expansion the strategy sees a copy into
whose statements the definitions have been put, while the stored statements stay
as they are.
-/

namespace Discharge

/-- A statement that is assumed. -/
structure Axiom where
  name : String
  statement : Claim
  deriving DecidableEq

/-- The axiom as a document. -/
def Axiom.toJson (a : Axiom) : Json :=
  .object [("name", .text a.name), ("statement", a.statement.toJson)]

/-- The kinds of obligations. -/
inductive Kind where
  /-- A lemma. -/
  | supporting
  /-- A theorem. -/
  | principal
  /-- A corollary. -/
  | consequence
  deriving DecidableEq

namespace Kind

/-- Every kind, in the order of reports. -/
def all : List Kind := [.supporting, .principal, .consequence]

/-- The name of a kind. -/
def name : Kind → String
  | .supporting => "lemma"
  | .principal => "theorem"
  | .consequence => "corollary"

/-- The kind of a name. -/
def ofName? (name : String) : Option Kind := all.find? fun k => k.name == name

/-- The name of all obligations of a kind. -/
def plural : Kind → String
  | .supporting => "lemmas"
  | .principal => "theorems"
  | .consequence => "corollaries"

end Kind

/-- The registries of a theory. -/
inductive Registry where
  | axioms
  | definitions
  | obligations (kind : Kind)
  deriving DecidableEq

/-- What an entry of a registry is called. -/
def Registry.entryName : Registry → String
  | .axioms => "axiom"
  | .definitions => "definition"
  | .obligations kind => kind.name

/-- Why an operation on a theory is refused. -/
inductive TheoryError where
  /-- The registry has an entry of this name already. -/
  | duplicateName (registry : Registry) (name : String)
  /-- The registry has no entry of this name. -/
  | unknownName (registry : Registry) (name : String)
  /-- Expanding the expression never ends. -/
  | definitionCycle (e : Expr)
  deriving DecidableEq

/-- The error in words, with the registry and the name as context. -/
def TheoryError.diagnostic : TheoryError → Diagnostic
  | .duplicateName registry name =>
    ((({ family := .registry, code := "duplicate-name",
         message := registry.entryName ++ " `" ++ name ++ "` is already registered" } : Diagnostic)
      |>.withContext "registry" registry.entryName)
      |>.withContext "name" name)
      |>.withHint "choose a unique name or set `duplicates: overwrite`"
  | .unknownName registry name =>
    (({ family := .registry, code := "unknown-name",
        message := "no " ++ registry.entryName ++ " named `" ++ name ++ "`" } : Diagnostic)
      |>.withContext "registry" registry.entryName)
      |>.withContext "name" name
  | .definitionCycle e =>
    ({ family := .registry, code := "definition-cycle",
       message := "definitions never settle in `" ++ e.render ++ "`" } : Diagnostic)
      |>.withHint "a definition refers back to itself"

/-- Axioms, definitions and obligations by name. -/
structure Theory where
  duplicates : Duplicates := .reject
  axioms : Table Axiom := ∅
  definitions : Table Expr := ∅
  lemmas : Table Obligation := ∅
  theorems : Table Obligation := ∅
  corollaries : Table Obligation := ∅
  deriving DecidableEq

namespace Theory

/-- The obligations of a kind. -/
def obligations (t : Theory) : Kind → Table Obligation
  | .supporting => t.lemmas
  | .principal => t.theorems
  | .consequence => t.corollaries

/-- Stores an obligation of a kind under a name. -/
def setObligation (t : Theory) (kind : Kind) (name : String) (ob : Obligation) : Theory :=
  match kind with
  | .supporting => { t with lemmas := t.lemmas.insert name ob }
  | .principal => { t with theorems := t.theorems.insert name ob }
  | .consequence => { t with corollaries := t.corollaries.insert name ob }

/-- Every obligation with its kind, the lemmas first and the corollaries last. -/
def allObligations (t : Theory) : List (Kind × Obligation) :=
  Kind.all.flatMap fun kind => (t.obligations kind).values.map fun ob => (kind, ob)

/-! ## Registration -/

/-- Refuses a name that is taken, unless duplicates overwrite. -/
def checkFree {α : Type} (t : Theory) (registry : Registry) (entries : Table α) (name : String) :
    Except TheoryError Unit :=
  if entries.contains name ∧ t.duplicates = .reject then .error (.duplicateName registry name)
  else .ok ()

/-- Registers an axiom. -/
def addAxiom (t : Theory) (name : String) (statement : Claim) : Except TheoryError Theory := do
  t.checkFree .axioms t.axioms name
  return { t with axioms := t.axioms.insert name ⟨name, statement⟩ }

/-- Registers a named expression. -/
def addDefinition (t : Theory) (name : String) (e : Expr) : Except TheoryError Theory := do
  t.checkFree .definitions t.definitions name
  return { t with definitions := t.definitions.insert name e }

/-- Registers an obligation under its own name. -/
def addObligation (t : Theory) (kind : Kind) (ob : Obligation) : Except TheoryError Theory := do
  t.checkFree (.obligations kind) (t.obligations kind) ob.name
  return t.setObligation kind ob.name ob

/-! ## Definitions -/

/-- The defined names an expression mentions, in increasing order. -/
def pending (t : Theory) (e : Expr) : List String := e.symbols.filter t.definitions.contains

/-- Puts the definition of a name into an expression. -/
def putDefinition (t : Theory) (e : Expr) (name : String) : Expr :=
  match t.definitions.find? name with
  | some value => e.substitute name value
  | none => e

/-- Puts the definitions of all names an expression mentions into it, one after
the other. -/
def expandOnce (t : Theory) (e : Expr) : Expr := (t.pending e).foldl t.putDefinition e

/-- Repeats `expandOnce` until no defined name is left, within a number of
looks at the expression. -/
def settle? (t : Theory) : Nat → Expr → Option Expr
  | 0, _ => none
  | looks + 1, e => if (t.pending e).isEmpty then some e else t.settle? looks (t.expandOnce e)

/-- Puts definitions into an expression until no defined name is left.  Without a
cycle one round a definition is enough. -/
def expand (t : Theory) (e : Expr) : Except TheoryError Expr :=
  match t.settle? (t.definitions.entries.length + 1) e with
  | some result => .ok result
  | none => .error (.definitionCycle e)

/-- Puts definitions into every expression of a statement. -/
def expandClaim (t : Theory) (c : Claim) : Except TheoryError Claim := c.mapM t.expand

/-! ## Verification -/

/-- What a strategy is shown of an obligation. -/
def working (t : Theory) (expand : Bool) (ob : Obligation) : Except TheoryError Obligation :=
  if expand then ob.mapClaims t.expandClaim else .ok ob

/-- Runs a strategy on a registered obligation and records the status and the
steps of the attempt on it. -/
def verify (t : Theory) (kind : Kind) (name : String) (expand : Bool) (strategy : Strategy)
    (oracle : Oracle) : Except TheoryError (Theory × Attempt) :=
  match (t.obligations kind).find? name with
  | none => .error (.unknownName (.obligations kind) name)
  | some stored => do
    let attempt := strategy.run oracle (← t.working expand stored)
    return (t.setObligation kind name (stored.record attempt.obligation.status attempt.steps),
      attempt)

/-! ## Documents -/

/-- The theory as a document. -/
def toJson (t : Theory) : Json :=
  .object [("duplicates", .text t.duplicates.name), ("axioms", t.axioms.toJson Axiom.toJson),
    ("definitions", t.definitions.toJson fun e => .text e.render),
    ("lemmas", t.lemmas.toJson Obligation.toJson),
    ("theorems", t.theorems.toJson Obligation.toJson),
    ("corollaries", t.corollaries.toJson Obligation.toJson)]

end Theory

end Discharge
