import Requalify.PatchedFile
import Requalify.Project
import Requalify.Summary

/-!
Running a tool over a project. Everything is read and every edit recorded before the first file is
written; then each file is patched on its own, and one that fails does not stop the others.
-/

namespace Requalify.Project

/-- What becomes of the patched texts. -/
structure OutputMode where
  /-- They take the place of the files. -/
  overwrite : Bool
  /-- They are shown as a whole. -/
  dump : Bool
  /-- Their differences are shown. -/
  diff : Bool
  deriving DecidableEq, Inhabited

structure Job where
  tool : Tool
  root : FilePath
  settings : Option FilePath
  /-- The files to work on; none means all sources of the project. -/
  files : List FilePath
  mode : OutputMode
  deriving DecidableEq

structure Outcome where
  /-- The warnings given before the run ended. -/
  diagnostics : List Diagnostic
  /-- Dumps and differences, file by file. -/
  output : String
  result : Except RunError Summary

/-- Where texts are shown. A text may be refused. -/
abbrev Screen (m : Type → Type) := String → m (Except DiskError Unit)

/-- A screen that keeps what it has shown and refuses nothing. -/
def Screen.keeping (m : Type → Type) [Monad m] : Screen (StateT String m) :=
  fun text => do
    modify (· ++ text)
    return .ok ()

variable {m : Type → Type} [Monad m]

/-- What is shown of a patched file. -/
def shown (mode : OutputMode) (file : PatchedFile) : List String :=
  (if mode.dump then [file.framed] else []) ++ if mode.diff then [file.diff] else []

/-- Show texts up to the first that is refused. -/
def showAll (screen : Screen m) : List String → m (Except RunError Unit)
  | [] => return .ok ()
  | text :: rest => do
      match ← screen text with
      | .error cause => return .error (.disk "<stdout>" cause)
      | .ok () => showAll screen rest

/-- Patch one file. It is shown before it is written. -/
def applySet (disk : Disk m) (screen : Screen m) (mode : OutputMode) (set : PatchSet) :
    m FileResult := do
  let result := FileResult.mk set.relativePath set.patches.length
  match ← PatchedFile.ofSet disk set with
  | .error cause => return result (.failed (.apply cause))
  | .ok file =>
      match ← showAll screen (shown mode file) with
      | .error cause => return result (.failed cause)
      | .ok () =>
          if mode.overwrite then
            match ← file.write disk with
            | .error cause => return result (.failed (.apply cause))
            | .ok () => return result .written
          else return result .shown

def applyAll (disk : Disk m) (screen : Screen m) (mode : OutputMode) (sets : List PatchSet) :
    m (List FileResult) :=
  sets.mapM (applySet disk screen mode)

/-- The edits that a tool records for the contents of a project. -/
def record (tool : Tool) (contents : Contents) : Session × Except RunError (List UnitReport) :=
  Session.run tool contents.policy (fun source => .ok (contents.codebase.analyze source))
    contents.sources

/-- The warnings given before the run ended, and how it ended. -/
def runOn (disk : Disk m) (screen : Screen m) (job : Job) :
    m (List Diagnostic × Except RunError Summary) := do
  match ← (contents disk job.root job.settings job.files).run with
  | .error error => return ([], .error error)
  | .ok contents =>
      match record job.tool contents with
      | (session, .error error) => return (session.diagnostics.toList, .error error)
      | (session, .ok units) =>
          let diagnostics := session.diagnostics.toList
          let files ← applyAll disk screen job.mode session.store.toSets
          return (diagnostics, .ok ⟨job.tool, units, files, diagnostics⟩)

def run (disk : Disk m) (job : Job) : m Outcome := do
  let ((diagnostics, result), output) ← (runOn disk.beside (Screen.keeping m) job).run ""
  return ⟨diagnostics, output, result⟩

end Requalify.Project
