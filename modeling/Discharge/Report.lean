import Discharge.Digest.Sha256
import Discharge.Provenance
import Discharge.Theory

/-!
Reports: a snapshot of a theory with the counts of all verdicts.

A report names its own content address, which is taken over its axioms, entries,
summary and provenance.
-/

namespace Discharge

/-- The content address of a document. -/
def Json.address (v : Json) : String := Sha256.hex v.canonicalText

/-- An axiom in a report. -/
structure AxiomEntry where
  name : String
  statement : String
  deriving DecidableEq

/-- The entry as a document. -/
def AxiomEntry.toJson (a : AxiomEntry) : Json :=
  .object [("name", .text a.name), ("statement", .text a.statement)]

/-- An obligation in a report. -/
structure ReportEntry where
  kind : Kind
  name : String
  hypothesis : String
  conclusion : String
  methodLabel : String
  status : Status
  steps : List String
  deriving DecidableEq

namespace ReportEntry

/-- The entry of an obligation. -/
def ofObligation (kind : Kind) (ob : Obligation) : ReportEntry where
  kind
  name := ob.name
  hypothesis := ob.hypothesis.render
  conclusion := ob.conclusion.render
  methodLabel := ob.methodLabel
  status := ob.status
  steps := ob.steps

/-- The entry as a document. -/
def toJson (e : ReportEntry) : Json :=
  .object [("kind", .text e.kind.name), ("name", .text e.name), ("hypothesis", .text e.hypothesis),
    ("conclusion", .text e.conclusion), ("proof_method", .text e.methodLabel),
    ("status", .text e.status.name), ("proof_steps", Json.texts e.steps)]

/-- The entry as lines: status and name, statements, steps. -/
def render (e : ReportEntry) : String :=
  "  " ++ e.status.glyph ++ " " ++ e.name ++ " [" ++ e.methodLabel ++ "]\n      " ++ e.hypothesis
    ++ " => " ++ e.conclusion ++ "\n" ++ String.join (e.steps.map fun s => "        " ++ s ++ "\n")

end ReportEntry

/-- The counts of a report; axioms are not counted as obligations. -/
structure Summary where
  proven : Nat
  refuted : Nat
  unknown : Nat
  axioms : Nat
  total : Nat
  /-- The proven part of the total. -/
  successRate : Float

namespace Summary

/-- Counts the entries; whatever is neither proven nor refuted is unknown.  The
rate of no entries is zero. -/
def ofEntries (axioms : Nat) (entries : List ReportEntry) : Summary :=
  let proven := entries.countP fun e => e.status = .proven
  let refuted := entries.countP fun e => e.status = .refuted
  { proven, refuted, axioms
    unknown := entries.length - proven - refuted
    total := entries.length
    successRate := if entries.isEmpty then 0.0 else Binary64.ofRat ((proven : Rat) / entries.length) }

/-- The summary as a document. -/
def toJson (s : Summary) : Json :=
  .object [("proven", .integer s.proven), ("refuted", .integer s.refuted),
    ("unknown", .integer s.unknown), ("axioms", .integer s.axioms), ("total", .integer s.total),
    ("success_rate", .float s.successRate)]

/-- The counts on a line, with the rate in percent. -/
def render (s : Summary) : String :=
  "proven " ++ toString s.proven ++ "/" ++ toString s.total ++ " ("
    ++ Decimal.fixedText 1 (100.0 * s.successRate) ++ "%), refuted " ++ toString s.refuted
    ++ ", unknown " ++ toString s.unknown ++ "\n"

end Summary

/-- A report. -/
structure Report where
  /-- The content address of the rest of the report. -/
  hash : String
  axioms : List AxiomEntry
  entries : List ReportEntry
  summary : Summary
  provenance : Provenance

namespace Report

/-- The report on the present state of a theory. -/
def ofTheory (t : Theory) (provenance : Provenance) : Report :=
  let axioms := t.axioms.values.map fun a => AxiomEntry.mk a.name a.statement.render
  let entries := t.allObligations.map fun (kind, ob) => ReportEntry.ofObligation kind ob
  let summary := Summary.ofEntries axioms.length entries
  let content := Json.array [.array (axioms.map AxiomEntry.toJson),
    .array (entries.map ReportEntry.toJson), summary.toJson, provenance.toJson]
  { hash := content.address, axioms, entries, summary, provenance }

/-- Is every obligation proven? -/
def allProven (r : Report) : Bool := r.summary.proven == r.summary.total

/-- The report as a document. -/
def toJson (r : Report) : Json :=
  .object [("report_hash", .text r.hash), ("axioms", .array (r.axioms.map AxiomEntry.toJson)),
    ("entries", .array (r.entries.map ReportEntry.toJson)), ("summary", r.summary.toJson),
    ("provenance", r.provenance.toJson)]

/-- The axioms under a heading, if there are any. -/
def renderAxioms : List AxiomEntry → String
  | [] => ""
  | axioms => "axioms\n" ++ String.join (axioms.map fun a =>
      "  " ++ Status.axiomatic.glyph ++ " " ++ a.name ++ ": " ++ a.statement ++ "\n")

/-- The entries, with a heading wherever the kind changes. -/
def renderEntries (last : Option Kind) : List ReportEntry → String
  | [] => ""
  | e :: rest =>
    (if last = some e.kind then "" else e.kind.plural ++ "\n") ++ e.render
      ++ renderEntries (some e.kind) rest

/-- The report as text. -/
def render (r : Report) : String :=
  renderAxioms r.axioms ++ renderEntries none r.entries ++ r.summary.render
    ++ "report " ++ r.hash ++ "\n"

end Report

end Discharge
