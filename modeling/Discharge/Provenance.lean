import Discharge.Document.Json

/-!
Provenance: from which input, under which policy and with which tools a report
was made.
-/

namespace Discharge

/-- The version of a document's layout. -/
structure SchemaVersion where
  major : Nat := 1
  minor : Nat := 0
  patch : Nat := 0
  deriving DecidableEq

/-- The version as a document. -/
def SchemaVersion.toJson (v : SchemaVersion) : Json :=
  .object [("major", .integer v.major), ("minor", .integer v.minor), ("patch", .integer v.patch)]

/-- The version of this program and its parts. -/
def programVersion : String := "0.1.0"

/-- Where a report comes from. -/
structure Provenance where
  schema : SchemaVersion := {}
  /-- The content address of the input. -/
  inputHash : String := ""
  /-- The content address of the policy. -/
  policyHash : String := ""
  /-- The versions of the tools by name. -/
  toolVersions : Table String := ∅
  deriving DecidableEq

namespace Provenance

/-- Records the version of a tool. -/
def withTool (p : Provenance) (name version : String) : Provenance :=
  { p with toolVersions := p.toolVersions.insert name version }

/-- The provenance of a run on an input under a policy, with the version of the
core. -/
def ofRun (inputHash policyHash : String) : Provenance :=
  ({ inputHash, policyHash } : Provenance).withTool "qed-core" programVersion

/-- The provenance as a document. -/
def toJson (p : Provenance) : Json :=
  .object [("schema", p.schema.toJson), ("input_hash", .text p.inputHash),
    ("policy_hash", .text p.policyHash), ("tool_versions", p.toolVersions.toJson .text)]

end Provenance

end Discharge
