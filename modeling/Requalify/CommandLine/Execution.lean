import Requalify.CommandLine.Help
import Requalify.CommandLine.Reading

/-!
What a command line prints and how it exits. Warnings and the report for a reader go to the error
stream; texts, differences and reports in JSON go to the output.
-/

namespace Requalify.CommandLine

structure Response where
  exit : Nat
  output : String
  errors : String
  deriving DecidableEq

/-- The exit code for command lines that cannot be understood. -/
def misuseCode : Nat := 2

def Stop.response : Stop → Response
  | .help page detailed => ⟨0, page.text detailed, ""⟩
  | .version => ⟨0, versionLine, ""⟩
  | .misuse cause => ⟨misuseCode, "", cause.message⟩

def warnings (diagnostics : List Diagnostic) : String :=
  String.join (diagnostics.map fun diagnostic => diagnostic.text ++ "\n")

/-- The exit code of a run: 0 if every file could be patched. -/
def exitCode (summary : Summary) : Nat :=
  if summary.failedCount = 0 then 0 else (RunError.applyFailed summary.failedCount).code

/-- How the outcome of a run is told in the format that was asked for. -/
def report (invocation : Invocation) (outcome : Project.Outcome) : Response :=
  let warned := match invocation.format with
    | .text => warnings outcome.diagnostics
    | .json => ""
  match outcome.result, invocation.format with
  | .error error, _ =>
      ⟨error.code, outcome.output ++ (Summary.errorJson error).document, warned⟩
  | .ok summary, .json => ⟨exitCode summary, outcome.output ++ summary.json.document, warned⟩
  | .ok summary, .text =>
      ⟨exitCode summary, outcome.output, warned ++ summary.lines invocation.mode.overwrite⟩

/-- A report in JSON leaves no room for texts on the same stream. -/
def clashes (invocation : Invocation) : Bool :=
  invocation.format = .json && (invocation.mode.dump || invocation.mode.diff)

def clashError : RunError :=
  .invalidArguments
    "--dump and --diff write to stdout and cannot be combined with --format json"

def job (current : FilePath) (invocation : Invocation) : Project.Job where
  tool := invocation.tool
  root := (invocation.root.map FilePath.mk).getD current
  settings := invocation.settings.map FilePath.mk
  files := invocation.files.map FilePath.mk
  mode := invocation.mode

variable {m : Type → Type} [Monad m]

def execute (disk : Disk m) (current : FilePath) (invocation : Invocation) : m Response := do
  if clashes invocation then
    return ⟨clashError.code, (Summary.errorJson clashError).document, ""⟩
  return report invocation (← Project.run disk (job current invocation))

/-- Do what the words ask for, in the directory `current`. -/
def respond (disk : Disk m) (current : FilePath) (words : List String) : m Response :=
  match read words with
  | .error stop => return stop.response
  | .ok invocation => execute disk current invocation

end Requalify.CommandLine
