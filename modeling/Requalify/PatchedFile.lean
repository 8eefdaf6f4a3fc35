import Requalify.Patch.LineDiff
import Requalify.RunError

/-!
Files with their recorded patches applied. A file is read anew and its patches are applied only if its
text is still the one they were made for, which its digest shows.
-/

namespace Requalify

structure PatchedFile where
  path : FilePath
  relativePath : String
  before : String
  after : String
  patches : List Patch
  deriving DecidableEq

namespace PatchedFile

def ofText (set : PatchSet) (text : String) : Except ApplyError PatchedFile :=
  let found := digest (Text.bytes text)
  if found ≠ set.digest then .error (.stale set.relativePath set.digest found)
  else
    match Patch.splice text set.patches with
    | .error cause => .error (.splice set.relativePath cause)
    | .ok after => .ok ⟨set.path, set.relativePath, text, after, set.patches⟩

variable {m : Type → Type} [Monad m]

/-- Read the file of a patch set and apply the patches to its text. -/
def ofSet (disk : Disk m) (set : PatchSet) : m (Except ApplyError PatchedFile) := do
  match ← disk.readText set.path with
  | .error cause => return .error (.read set.relativePath cause)
  | .ok text => return ofText set text

/-- The text after patching between two rules. -/
def framed (file : PatchedFile) : String :=
  s!"============== {file.relativePath} ==============\n{file.after}\n" ++
    "============================================\n"

def diff (file : PatchedFile) : String :=
  LineDiff.render file.relativePath file.before file.patches

def write (disk : Disk m) (file : PatchedFile) : m (Except ApplyError Unit) := do
  return (← disk.writeText file.path file.after).mapError (.write file.relativePath)

end PatchedFile

end Requalify
