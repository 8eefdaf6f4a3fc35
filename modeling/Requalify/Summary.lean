import Requalify.JsonValue
import Requalify.Session

/-! What a run reports about its sources and about the files it patched. -/

namespace Requalify

inductive FileStatus where
  /-- Patched in memory, and the file on disk is left alone. -/
  | shown
  | written
  | failed (cause : RunError)
  deriving DecidableEq

structure FileResult where
  file : String
  patches : Nat
  status : FileStatus
  deriving DecidableEq

def FileResult.failed (result : FileResult) : Bool :=
  match result.status with
  | .failed _ => true
  | _ => false

structure Summary where
  tool : Tool
  units : List UnitReport
  files : List FileResult
  diagnostics : List Diagnostic

namespace Summary

def failedCount (summary : Summary) : Nat :=
  summary.files.countP FileResult.failed

def patchCount (summary : Summary) : Nat :=
  summary.files.foldl (fun total result => total + result.patches) 0

/-- The version of the form that reports have. -/
def schemaVersion : String × JsonValue :=
  ("schema_version", .text "1")

def unitJson (report : UnitReport) : JsonValue :=
  .record [("file", .text report.file), ("patched", .number report.patched),
    ("duplicates", .number report.duplicates), ("unchanged", .number report.unchanged)]

def statusFields : FileStatus → List (String × JsonValue)
  | .shown => [("status", .text "rewritten")]
  | .written => [("status", .text "written")]
  | .failed cause => [("status", .text "failed"), ("error", .text cause.message)]

def fileJson (result : FileResult) : JsonValue :=
  .record ([("file", .text result.file), ("patches", .number result.patches)] ++
    statusFields result.status)

def locationJson (location : Location) : JsonValue :=
  .record [("file", .text location.file), ("line", .number location.position.line),
    ("col", .number location.position.column), ("byte_start", .number location.offset)]

def fixJson : FixIt → JsonValue
  | .insert place text =>
      .record [("kind", .text "insert"), ("at", locationJson place), ("text", .text text)]
  | .replace start stop old text =>
      .record [("kind", .text "replace"), ("from", locationJson start), ("to", locationJson stop),
        ("old", .text old), ("text", .text text)]
  | .remove start stop old =>
      .record [("kind", .text "remove"), ("from", locationJson start), ("to", locationJson stop),
        ("old", .text old)]

def diagnosticJson (diagnostic : Diagnostic) : JsonValue :=
  .record [("location", locationJson diagnostic.location), ("label", .text diagnostic.label),
    ("fix", fixJson diagnostic.fix)]

def json (summary : Summary) : JsonValue :=
  .record [("status", .text (if summary.failedCount = 0 then "ok" else "partial")), schemaVersion,
    ("tool", .text summary.tool.name), ("units", .list (summary.units.map unitJson)),
    ("files", .list (summary.files.map fileJson)),
    ("diagnostics", .list (summary.diagnostics.map diagnosticJson))]

/-- The report of a run that ended early. -/
def errorJson (error : RunError) : JsonValue :=
  .record [("status", .text "error"), schemaVersion,
    ("error", .record [("code", .number error.code), ("message", .text error.message)])]

def failureLine (result : FileResult) : List String :=
  match result.status with
  | .failed cause => [s!"  failed: {result.file} ({cause.message})\n"]
  | _ => []

/-- The report for a reader: one line, and one more for each file that failed. -/
def lines (summary : Summary) (overwrite : Bool) : String :=
  let verb := if overwrite then "rewrote" else "would rewrite"
  let count := summary.files.length - summary.failedCount
  s!"{summary.tool.name}: {verb} {count} file(s) of {summary.units.length} unit(s), " ++
    s!"{summary.patchCount} patch(es)\n" ++
    String.join (summary.files.flatMap failureLine)

end Summary

end Requalify
