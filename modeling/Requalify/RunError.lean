import Requalify.Disk
import Requalify.Patch.Splice
import Requalify.Patch.Store

/-!
What ends a run, or the patching of one file, and how that is reported.
-/

namespace Requalify

/-- Why the patches of the file `path` were not applied. -/
inductive ApplyError where
  | read (path : String) (cause : DiskError)
  | write (path : String) (cause : DiskError)
  /-- The content is no longer the one that the patches were made for. -/
  | stale (path expected found : String)
  | splice (path : String) (cause : SpliceError)
  deriving DecidableEq

namespace ApplyError

def path : ApplyError → String
  | read path _ => path
  | write path _ => path
  | stale path _ _ => path
  | splice path _ => path

def message : ApplyError → String
  | read path cause => s!"failed to read {path}: {cause.message}"
  | write path cause => s!"failed to write {path}: {cause.message}"
  | stale path expected found =>
      s!"{path} changed since it was analyzed (expected {expected}, found {found})"
  | splice path (.outOfBounds offset length size) =>
      s!"patch at {offset}+{length} is out of bounds for {path} ({size} bytes)"
  | splice path (.splitsCharacter offset) =>
      s!"patch at {offset} in {path} does not fall on a character boundary"
  | splice path (.overlap offset) => s!"overlapping patches in {path} at {offset}"

end ApplyError

inductive ConfigError where
  | unreadable (path : String) (cause : DiskError)
  | malformed (path : String)
  | badPattern (pattern : String)
  deriving DecidableEq

def ConfigError.message : ConfigError → String
  | unreadable path cause => s!"failed to read config file {path}: {cause.message}"
  | malformed path => s!"failed to parse config file {path}: ..."
  | badPattern pattern => s!"invalid exclude pattern {Text.quoted pattern}: ..."

inductive RunError where
  | invalidArguments (message : String)
  | fileNotFound (path : String)
  | config (cause : ConfigError)
  | analysis (file message : String)
  | conflict (cause : Conflict)
  | apply (cause : ApplyError)
  | applyFailed (count : Nat)
  | disk (path : String) (cause : DiskError)
  deriving DecidableEq

namespace RunError

def message : RunError → String
  | invalidArguments message => s!"invalid arguments: {message}"
  | fileNotFound path => s!"file not found: {path}"
  | config cause => cause.message
  | analysis file message => s!"analysis failed for {file}: {message}"
  | conflict cause => cause.message
  | apply cause => cause.message
  | applyFailed count => s!"failed to apply patches to {count} file(s)"
  | disk path cause => s!"io error on {path}: {cause.message}"

/-- The exit code: bad input 2, analysis 3, applying 4, edits that contradict each other 10. -/
def code : RunError → Nat
  | invalidArguments _ => 2
  | config _ => 2
  | fileNotFound _ => 3
  | analysis _ _ => 3
  | disk _ _ => 3
  | apply _ => 4
  | applyFailed _ => 4
  | conflict _ => 10

end RunError

end Requalify
