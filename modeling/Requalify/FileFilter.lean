import Requalify.Configuration
import Requalify.FilePath
import Requalify.Glob.Nesting
import Requalify.Glob.Reading
import Requalify.RunError

/-! Which files of a project are sources: those with a listed extension that no pattern excludes. -/

namespace Requalify

structure FileFilter where
  extensions : List String
  excluded : List Glob

namespace FileFilter

def readPattern (pattern : String) : Except ConfigError Glob :=
  match Glob.ofText? pattern with
  | some glob => .ok glob
  | none => .error (.badPattern pattern)

/-- The filter of the settings. The first pattern that cannot be read is reported; a pattern that nests
too deeply is reported with all others, since they are matched together. -/
def ofSettings (settings : FileSettings) : Except ConfigError FileFilter := do
  let globs ← settings.excluded.mapM readPattern
  if globs.any (Glob.nestingLimit < ·.nesting) then
    throw (.badPattern (",".intercalate settings.excluded))
  return ⟨settings.extensions, globs⟩

/-- The file with the given path from the project root is a source. -/
def accepts (filter : FileFilter) (relativePath : String) : Bool :=
  match (FilePath.mk relativePath).extension? with
  | none => false
  | some extension =>
      filter.extensions.contains extension && !filter.excluded.any (·.accepts relativePath)

end FileFilter

end Requalify
