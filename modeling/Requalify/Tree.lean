import Requalify.Disk
import Requalify.Text.Offset

/-!
A disk in memory: files with their contents, each at one place. A place is the list of names that lead
to it from the top, and several paths may lead to one place, since `..` steps back. Directories on the
way to a file need not be listed.
-/

namespace Requalify

abbrev Place := List String

structure Tree where
  files : List (Place × ByteArray)
  directories : List Place
  /-- Places of files that refuse to be written. -/
  locked : List Place
  deriving Inhabited

namespace Tree

def empty : Tree := ⟨[], [], []⟩

def content? (tree : Tree) (place : Place) : Option ByteArray :=
  (tree.files.find? (·.1 == place)).map (·.2)

/-- The place is the top, a listed directory, or on the way to something listed. -/
def holdsDirectory (tree : Tree) (place : Place) : Bool :=
  place.isEmpty || tree.directories.any place.isPrefixOf ||
    tree.files.any fun file => place.isPrefixOf file.1 && place.length < file.1.length

/-- Give the file at a place a content; the file is created if there is none. -/
def put (tree : Tree) (place : Place) (content : ByteArray) : Tree :=
  if (tree.content? place).isSome then
    { tree with
      files := tree.files.map fun file => if file.1 = place then (place, content) else file }
  else { tree with files := tree.files ++ [(place, content)] }

def addDirectory (tree : Tree) (place : Place) : Tree :=
  { tree with directories := tree.directories ++ [place] }

/-- How many bytes a name may have. -/
def nameLimit : Nat := 255

/-- How many bytes a path may have. -/
def pathLimit : Nat := 4095

/-- Follow the pieces of a path. Every step leaves a directory, and the last one need not lead to
anything that exists. -/
def follow (tree : Tree) (place : Place) : List (List Char) → Except DiskError Place
  | [] => .ok place
  | piece :: rest =>
      if !tree.holdsDirectory place then
        .error (if (tree.content? place).isSome then .notDirectory else .missing)
      else if FilePath.isIdle piece then tree.follow place rest
      else if piece = ['.', '.'] then tree.follow place.dropLast rest
      else if nameLimit < Text.byteLength piece then .error .nameTooLong
      else tree.follow (place ++ [String.ofList piece]) rest

/-- The place that a path names, read from the directory at `current`. -/
def find (tree : Tree) (current : Place) (path : FilePath) : Except DiskError Place :=
  if path.text.isEmpty then .error .missing
  else if path.text.toList.contains '\x00' then .error .badName
  else if pathLimit < Text.byteLength path.text.toList then .error .nameTooLong
  else
    tree.follow (if path.isAbsolute then [] else current) (FilePath.pieces path.text.toList)

def isDirectory (tree : Tree) (current : Place) (path : FilePath) : Bool :=
  match tree.find current path with
  | .ok place => tree.holdsDirectory place
  | .error _ => false

def isFile (tree : Tree) (current : Place) (path : FilePath) : Bool :=
  match tree.find current path with
  | .ok place => (tree.content? place).isSome
  | .error _ => false

def read (tree : Tree) (current : Place) (path : FilePath) : Except DiskError ByteArray :=
  match tree.find current path with
  | .error cause => .error cause
  | .ok place =>
      match tree.content? place with
      | some content => .ok content
      | none => .error (if tree.holdsDirectory place then .isDirectory else .missing)

/-- The place that a path names for writing. A slash at the end asks for a directory. -/
def findWritable (tree : Tree) (current : Place) (path : FilePath) : Except DiskError Place := do
  let backward := path.text.toList.reverse
  let name := (backward.dropWhile (· == '/')).reverse
  if backward.head? = some '/' then
    let _ ← tree.find current ⟨String.ofList (if name.isEmpty then ['/'] else name)⟩
    throw .isDirectory
  let place ← tree.find current path
  if tree.holdsDirectory place then throw .isDirectory
  if tree.locked.contains place then throw .denied
  return place

def write (tree : Tree) (current : Place) (path : FilePath) (content : ByteArray) :
    Except DiskError Tree :=
  (tree.findWritable current path).map fun place => tree.put place content

/-- Read on from `path` through `names`. -/
def extend (path : FilePath) (names : List String) : FilePath :=
  names.foldl (fun path name => path.join ⟨name⟩) path

def filesBelow (tree : Tree) (current : Place) (path : FilePath) (enters : String → Bool) :
    Except (FilePath × DiskError) (List FilePath) :=
  match tree.find current path with
  | .error cause => .error (path, cause)
  | .ok place =>
      .ok (tree.files.filterMap fun file =>
        let names := file.1.drop place.length
        if place.isPrefixOf file.1 && names.dropLast.all enters then some (extend path names)
        else none)

/-- The tree as a disk, where paths are read from the directory at `current`. -/
def disk (current : Place) : Disk (StateM Tree) where
  isDirectory path := return (← get).isDirectory current path
  isFile path := return (← get).isFile current path
  read path := return (← get).read current path
  write path content := do
    match (← get).write current path content with
    | .error cause => return .error cause
    | .ok tree =>
        set tree
        return .ok ()
  filesBelow path enters := return (← get).filesBelow current path enters

end Tree

end Requalify
