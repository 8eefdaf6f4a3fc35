/-!
File paths with `/` between names. Two spellings name the same entry when their components agree:
repeated separators and inner `.` names do not count, while `..` is kept as it stands.
-/

namespace Requalify

structure FilePath where
  text : String
  deriving DecidableEq, Inhabited

namespace FilePath

inductive Component where
  | root
  | current
  | parent
  | name (text : String)
  deriving DecidableEq

/-- The pieces of a text between slashes; a text without slashes is one piece. -/
def pieces : List Char → List (List Char)
  | [] => [[]]
  | '/' :: rest => [] :: pieces rest
  | c :: rest =>
      match pieces rest with
      | [] => [[c]]
      | piece :: more => (c :: piece) :: more

/-- Empty pieces and `.` have no component inside a path. -/
def isIdle (piece : List Char) : Bool :=
  piece.isEmpty || piece == ['.']

def componentOf (piece : List Char) : Component :=
  if piece = ['.', '.'] then .parent else .name (String.ofList piece)

/-- The next component of the text after some component, with the text that follows it. -/
def nextInside : List (List Char) → Option (Component × List (List Char))
  | [] => none
  | piece :: rest => if isIdle piece then nextInside rest else some (componentOf piece, rest)

/-- A text that is still to be read: whether its beginning lies ahead, and its pieces. -/
structure Remainder where
  atStart : Bool
  pieces : List (List Char)

def remainder (path : FilePath) : Remainder :=
  ⟨true, pieces path.text.toList⟩

def Remainder.next (remainder : Remainder) : Option (Component × Remainder) :=
  match remainder.atStart, remainder.pieces with
  | true, [] :: second :: rest => some (.root, ⟨false, second :: rest⟩)
  | true, ['.'] :: rest => some (.current, ⟨false, rest⟩)
  | _, pieces => (nextInside pieces).map fun (component, rest) => (component, ⟨false, rest⟩)

def components (path : FilePath) : List Component :=
  match pieces path.text.toList with
  | [] :: second :: rest =>
      .root :: ((second :: rest).filter (!isIdle ·)).map componentOf
  | ['.'] :: rest => .current :: (rest.filter (!isIdle ·)).map componentOf
  | all => (all.filter (!isIdle ·)).map componentOf

/-- Both paths are spellings of one entry. -/
def SameEntry (left right : FilePath) : Prop :=
  left.components = right.components

instance (left right : FilePath) : Decidable (left.SameEntry right) :=
  inferInstanceAs (Decidable (_ = _))

def isAbsolute (path : FilePath) : Bool :=
  path.text.toList.head? == some '/'

/-- `path` read from inside `base`. -/
def join (base path : FilePath) : FilePath :=
  if path.isAbsolute then path
  else
    match base.text.toList.getLast? with
    | none => path
    | some last => ⟨if last = '/' then base.text ++ path.text else base.text ++ "/" ++ path.text⟩

def joinPieces (pieces : List (List Char)) : List Char :=
  ['/'].intercalate pieces

def dropIdleEnd (pieces : List (List Char)) : List (List Char) :=
  (pieces.reverse.dropWhile isIdle).reverse

/-- The text of what is left to read, without idle pieces at its ends. -/
def Remainder.text (remainder : Remainder) : String :=
  let shown := match remainder.atStart, remainder.pieces with
    | true, [] :: second :: rest => '/' :: joinPieces (dropIdleEnd (second :: rest))
    | true, ['.'] :: rest => joinPieces (['.'] :: dropIdleEnd rest)
    | true, pieces => joinPieces (dropIdleEnd pieces)
    | false, pieces => joinPieces (dropIdleEnd (pieces.dropWhile isIdle))
  String.ofList shown

/-- Read the components of `base` off the front. -/
def Remainder.after? (remainder : Remainder) : List Component → Option Remainder
  | [] => some remainder
  | component :: rest =>
      match remainder.next with
      | some (found, left) => if found = component then left.after? rest else none
      | none => none

/-- `path` as seen from `root`; a path that does not lie under `root` is kept as it is. -/
def relativeTo (path root : FilePath) : String :=
  match path.remainder.after? root.components with
  | some left => left.text
  | none => path.text

/-- The last component, if it is a name. -/
def fileName? (path : FilePath) : Option String :=
  match path.components.getLast? with
  | some (.name text) => some text
  | _ => none

/-- The part of a file name after its last dot; a dot in front starts a name and no extension. -/
def extension? (path : FilePath) : Option String := do
  let name ← path.fileName?
  let backward := name.toList.reverse
  let tail := backward.takeWhile (· != '.')
  match backward.drop tail.length with
  | _ :: _ :: _ => some (String.ofList tail.reverse)
  | _ => none

end FilePath

end Requalify
