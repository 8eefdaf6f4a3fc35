import Requalify.FilePath
import Requalify.Text.Upper

/-!
The name that the anonymous namespaces of a file receive. It is made from the file's path: the
extension goes, every component after the first starts in upper case, and what cannot stand in an
identifier becomes an underscore. `base/tf/notice.cpp` gives `baseTfNotice`.
-/

namespace Requalify

namespace ModuleName

/-- Backslashes separate components too. -/
def withSlashes (path : List Char) : List Char :=
  path.map fun c => if c = '\\' then '/' else c

/-- Drop the last dot and all after it, unless that dot is the first character of its component or
stands in front of a slash. -/
def stem (path : List Char) : List Char :=
  let backward := path.reverse
  let extension := backward.takeWhile (· != '.')
  if extension.contains '/' then path
  else
    match backward.drop extension.length with
    | '.' :: '/' :: _ => path
    | ['.'] => path
    | '.' :: before => before.reverse
    | _ => path

def capitalize : List Char → List Char
  | [] => []
  | first :: rest => Text.toUpper first ++ rest

/-- The components that count: neither empty nor `.`. -/
def components (path : List Char) : List (List Char) :=
  (FilePath.pieces path).filter (!FilePath.isIdle ·)

def joined : List (List Char) → List Char
  | [] => []
  | first :: rest => first ++ rest.flatMap capitalize

def isIdentifierChar (c : Char) : Bool :=
  c.isAlphanum || c == '_'

/-- Make any text an identifier. -/
def sanitize (text : List Char) : List Char :=
  let safe := text.map fun c => if isIdentifierChar c then c else '_'
  match safe with
  | [] => ['_']
  | first :: _ => if first.isDigit then '_' :: safe else safe

end ModuleName

/-- The module name of the file with the given path from the project root. -/
def moduleName (relativePath : String) : String :=
  String.ofList <| ModuleName.sanitize <| ModuleName.joined <| ModuleName.components <|
    ModuleName.stem (ModuleName.withSlashes relativePath.toList)

end Requalify
