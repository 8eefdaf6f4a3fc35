import Requalify.FilePath

/-!
What a run asks of a disk, and why a disk refuses. A run works over any disk: the machine's own, or a
`Tree` held in memory, about which statements can be proved.
-/

namespace Requalify

/-- Why the disk refused a request. -/
inductive DiskError where
  | missing
  | notDirectory
  | isDirectory
  | denied
  | nameTooLong
  | badName
  | invalidText
  | other (message : String)
  deriving DecidableEq

def DiskError.message : DiskError → String
  | missing => "No such file or directory (os error 2)"
  | notDirectory => "Not a directory (os error 20)"
  | isDirectory => "Is a directory (os error 21)"
  | denied => "Permission denied (os error 13)"
  | nameTooLong => "File name too long (os error 36)"
  | badName => "file name contained an unexpected NUL byte"
  | invalidText => "stream did not contain valid UTF-8"
  | other message => message

structure Disk (m : Type → Type) where
  isDirectory : FilePath → m Bool
  isFile : FilePath → m Bool
  /-- The content of a file. -/
  read : FilePath → m (Except DiskError ByteArray)
  /-- Give a file a new content, all of it or none. -/
  write : FilePath → ByteArray → m (Except DiskError Unit)
  /-- The files below a directory, each as the directory's path and the names that lead to the file.
  Inner directories are entered if their name is accepted. A directory that cannot be listed is
  reported. -/
  filesBelow : FilePath → (String → Bool) → m (Except (FilePath × DiskError) (List FilePath))

namespace Disk

variable {m : Type → Type} [Monad m]

def exists? (disk : Disk m) (path : FilePath) : m Bool := do
  return (← disk.isFile path) || (← disk.isDirectory path)

/-- The content of a file that holds UTF-8 text. -/
def readText (disk : Disk m) (path : FilePath) : m (Except DiskError String) := do
  match ← disk.read path with
  | .error cause => return .error cause
  | .ok bytes =>
      match String.fromUTF8? bytes with
      | some text => return .ok text
      | none => return .error .invalidText

def writeText (disk : Disk m) (path : FilePath) (text : String) : m (Except DiskError Unit) :=
  disk.write path text.toUTF8

/-- The disk beside a state that it does not know. -/
def beside {σ : Type} (disk : Disk m) : Disk (StateT σ m) where
  isDirectory path := disk.isDirectory path
  isFile path := disk.isFile path
  read path := disk.read path
  write path content := disk.write path content
  filesBelow path enters := disk.filesBelow path enters

end Disk

end Requalify
