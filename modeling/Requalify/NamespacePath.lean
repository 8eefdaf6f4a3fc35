import Requalify.Text.Blank

/-!
Namespace paths: the names of nested namespaces, outermost first. The empty path is the global
namespace. Names are kept as they are spelled.
-/

namespace Requalify

@[ext]
structure NamespacePath where
  segments : List String
  deriving DecidableEq, Inhabited

namespace NamespacePath

def separator : String := "::"

def globalPath : NamespacePath := ⟨[]⟩

/-- The pieces of a text between its separators, which are found from the left. -/
def pieces : List Char → List (List Char)
  | [] => [[]]
  | ':' :: ':' :: rest => [] :: pieces rest
  | c :: rest =>
      match pieces rest with
      | [] => [[c]]
      | piece :: more => (c :: piece) :: more

/-- Read written qualifier text: blanks around a name and empty names do not count. -/
def parse (text : String) : NamespacePath where
  segments := (((pieces text.toList).map Text.trim).filter (!·.isEmpty)).map String.ofList

def length (path : NamespacePath) : Nat :=
  path.segments.length

def isGlobal (path : NamespacePath) : Bool :=
  path.segments.isEmpty

/-- The outermost name. -/
def root? (path : NamespacePath) : Option String :=
  path.segments.head?

def last? (path : NamespacePath) : Option String :=
  path.segments.getLast?

def child (path : NamespacePath) (name : String) : NamespacePath :=
  ⟨path.segments ++ [name]⟩

/-- The enclosing namespace; the global namespace has none. -/
def parent? (path : NamespacePath) : Option NamespacePath :=
  if path.segments.isEmpty then none else some ⟨path.segments.dropLast⟩

def take (path : NamespacePath) (count : Nat) : NamespacePath :=
  ⟨path.segments.take count⟩

def startsWith (path : NamespacePath) (names : List String) : Bool :=
  names.isPrefixOf path.segments

def endsWith (path : NamespacePath) (names : List String) : Bool :=
  names.isSuffixOf path.segments

/-- How many names two lists share from the front. -/
def sharedLength : List String → List String → Nat
  | left :: lefts, right :: rights => if left = right then sharedLength lefts rights + 1 else 0
  | _, _ => 0

def commonLength (left right : NamespacePath) : Nat :=
  sharedLength left.segments right.segments

/-- The names from `first` up to `last`, joined by the separator. -/
def join (path : NamespacePath) (first last : Nat) : String :=
  separator.intercalate ((path.segments.take last).drop first)

/-- Qualifier text for the names from `first` up to `last`, as in `std::chrono::`. -/
def qualifier (path : NamespacePath) (first last : Nat) : String :=
  path.join first last ++ separator

def text (path : NamespacePath) : String :=
  path.join 0 path.length

/-- The path and the namespaces around it, innermost first, the global one last. -/
def enclosing (path : NamespacePath) : List NamespacePath :=
  ((List.range (path.length + 1)).map path.take).reverse

end NamespacePath

end Requalify
