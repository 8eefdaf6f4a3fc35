import Requalify.Edit
import Requalify.RunError

/-!
Recording the edits of many sources. A session is the store of accepted edits and the warnings given
so far, one for each accepted edit. Sources are taken in order; the first that cannot be analyzed, or
whose edits contradict recorded ones, ends the run and leaves in the session what came before.
-/

namespace Requalify

structure Session where
  store : Store
  diagnostics : Array Diagnostic
  deriving Inhabited

/-- What became of the matches of one source. -/
structure UnitReport where
  file : String
  patched : Nat
  duplicates : Nat
  unchanged : Nat
  deriving DecidableEq, Inhabited

def UnitReport.count (report : UnitReport) : Option AddOutcome → UnitReport
  | some .inserted => { report with patched := report.patched + 1 }
  | some .duplicate => { report with duplicates := report.duplicates + 1 }
  | none => { report with unchanged := report.unchanged + 1 }

namespace Session

def empty : Session := ⟨Store.empty, #[]⟩

/-- Add an edit and warn about it, unless it is there already. -/
def add (session : Session) (source : Source) (edit : Edit) :
    Except Conflict (Session × AddOutcome) :=
  match session.store.add source edit.patch with
  | .error conflict => .error conflict
  | .ok (store, .duplicate) => .ok ({ session with store := store }, .duplicate)
  | .ok (store, .inserted) =>
      let diagnostic := Diagnostic.ofPatch source edit.patch edit.trigger
      .ok (⟨store, session.diagnostics.push diagnostic⟩, .inserted)

/-- Record what the matches of one source ask for. -/
def record (session : Session) (source : Source) (report : UnitReport) :
    List (Option Edit) → Session × Except Conflict UnitReport
  | [] => (session, .ok report)
  | none :: rest => session.record source (report.count none) rest
  | some edit :: rest =>
      match session.add source edit with
      | .error conflict => (session, .error conflict)
      | .ok (session, outcome) => session.record source (report.count (some outcome)) rest

/-- Analyze one source and record its edits. -/
def runUnit (tool : Tool) (policy : Policy) (analyze : Source → Except RunError Matches)
    (session : Session) (source : Source) : Session × Except RunError UnitReport :=
  match analyze source with
  | .error error => (session, .error error)
  | .ok found =>
      let edits := tool.edits policy source found
      let (session, result) := session.record source ⟨source.relativePath, 0, 0, 0⟩ edits
      (session, result.mapError .conflict)

def runFrom (tool : Tool) (policy : Policy) (analyze : Source → Except RunError Matches)
    (session : Session) (reports : Array UnitReport) :
    List Source → Session × Except RunError (List UnitReport)
  | [] => (session, .ok reports.toList)
  | source :: rest =>
      match runUnit tool policy analyze session source with
      | (session, .error error) => (session, .error error)
      | (session, .ok report) => runFrom tool policy analyze session (reports.push report) rest

/-- Run a tool over the sources, starting with nothing recorded. -/
def run (tool : Tool) (policy : Policy) (analyze : Source → Except RunError Matches)
    (sources : List Source) : Session × Except RunError (List UnitReport) :=
  runFrom tool policy analyze empty #[] sources

end Session

end Requalify
