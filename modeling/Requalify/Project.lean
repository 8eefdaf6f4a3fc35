import Requalify.Codebase
import Requalify.FileFilter
import Requalify.Session

/-!
A project on disk: its settings, its sources and the headers it names. Reading a project writes nothing,
and the first thing that cannot be read ends it.
-/

namespace Requalify.Project

variable {m : Type → Type} [Monad m]

/-- Directories that hold built or foreign files. -/
def foreignDirectories : List String :=
  ["build", "target", "node_modules"]

def isHidden (name : String) : Bool :=
  match name.toList with
  | '.' :: _ :: _ => true
  | _ => false

/-- The search for sources enters a directory of the given name. -/
def entersDirectory (name : String) : Bool :=
  !isHidden name && !foreignDirectories.contains name

/-- Paths in the order of how they are seen from the root. -/
def ordered (root : FilePath) (paths : List FilePath) : List FilePath :=
  paths.mergeSort fun left right => left.relativeTo root ≤ right.relativeTo root

/-- The files below the root that the filter accepts. -/
def discover (disk : Disk m) (root : FilePath) (filter : FileFilter) :
    ExceptT RunError m (List FilePath) := do
  match ← disk.filesBelow root entersDirectory with
  | .error (path, cause) => throw (.disk path.text cause)
  | .ok paths => return ordered root (paths.filter (filter.accepts <| ·.relativeTo root))

/-- Of neighbours that name the same entry only the first is kept. -/
def dropRepeated : List FilePath → List FilePath
  | [] => []
  | [path] => [path]
  | first :: second :: rest =>
      if first.SameEntry second then dropRepeated (first :: rest)
      else first :: dropRepeated (second :: rest)

/-- A path read from inside the root, which has to name a file. -/
def locate (disk : Disk m) (root path : FilePath) : ExceptT RunError m FilePath := do
  let full := root.join path
  if ← disk.isFile full then return full
  throw (.fileNotFound full.text)

/-- The files to work on: those asked for, without regard to the filter, or all that it accepts. -/
def select (disk : Disk m) (root : FilePath) (asked : List FilePath) (filter : FileFilter) :
    ExceptT RunError m (List FilePath) := do
  if asked.isEmpty then discover disk root filter
  else return dropRepeated (ordered root (← asked.mapM (locate disk root)))

def readText (disk : Disk m) (path : FilePath) : ExceptT RunError m String := do
  match ← disk.readText path with
  | .error cause => throw (.disk path.text cause)
  | .ok text => return text

def loadSource (disk : Disk m) (root path : FilePath) : ExceptT RunError m Source := do
  let full ← locate disk root path
  return ⟨full, full.relativeTo root, ← readText disk full⟩

def load (disk : Disk m) (root : FilePath) (paths : List FilePath) :
    ExceptT RunError m (List Source) :=
  paths.mapM (loadSource disk root)

def readSettings (disk : Disk m) (path : FilePath) : ExceptT RunError m Configuration := do
  match ← disk.readText path with
  | .error cause => throw (.config (.unreadable path.text cause))
  | .ok text =>
      match Configuration.ofToml? text with
      | some settings => return settings
      | none => throw (.config (.malformed path.text))

/-- Where a project keeps its settings. -/
def settingsPath (root : FilePath) : FilePath :=
  (root.join ⟨".nsfix"⟩).join ⟨"config.toml"⟩

/-- The settings in the named file, else the project's own, else the standard ones. -/
def settings (disk : Disk m) (root : FilePath) :
    Option FilePath → ExceptT RunError m Configuration
  | some path => readSettings disk path
  | none => do
      if ← disk.exists? (settingsPath root) then readSettings disk (settingsPath root)
      else return Configuration.standard

/-- The text of a header that the settings name. -/
def loadHeader (disk : Disk m) (root : FilePath) (header : String) : ExceptT RunError m String := do
  readText disk (← locate disk root ⟨header⟩)

/-- The sources of a run, with the settings and names they are judged by. -/
structure Contents where
  sources : List Source
  policy : Policy
  codebase : Codebase

def contents (disk : Disk m) (root : FilePath) (settingsFile : Option FilePath)
    (asked : List FilePath) : ExceptT RunError m Contents := do
  if !(← disk.isDirectory root) then
    throw (.invalidArguments s!"project root {root.text} is not a directory")
  let settings ← settings disk root settingsFile
  match FileFilter.ofSettings settings.files with
  | .error cause => throw (.config cause)
  | .ok filter =>
      let sources ← load disk root (← select disk root asked filter)
      let headers ← settings.catalog.extraHeaders.mapM (loadHeader disk root)
      let codebase := Codebase.ofSources headers settings.catalog.headerExtensions sources
      return ⟨sources, settings.policy, codebase⟩

end Requalify.Project
