import Requalify.Catalog.Builtin
import Requalify.Matches
import Requalify.Outline.Reading
import Requalify.Resolution
import Requalify.Source

/-!
All sources of a project, outlined and catalogued together. Each source is matched against the catalog
of all of them. Using-statements in headers reach other files; those in other sources do not.
-/

namespace Requalify

/-- The matches in one file: mentions that resolve, using-statements and anonymous namespaces. -/
def Matches.ofEnvironment (environment : Environment) : Matches :=
  let outline := environment.outline
  let resolved := outline.mentions.filterMap fun mention =>
    match environment.resolve mention with
    | .found resolved => some (mention.scope, resolved)
    | _ => none
  { references := resolved.filterMap fun (scope, item) =>
      if item.anonymous || item.declaration.path.isGlobal then none
      else some ⟨item.node, item.declaration, outline.contextOf scope⟩
    usings := outline.usings.map (·.statement)
    anonymousNamespaces := outline.anonymousNamespaces
    anonymousReferences := resolved.filterMap fun (scope, item) =>
      if item.anonymous && !outline.isInAnonymous scope then some ⟨item.node, item.declaration⟩
      else none }

structure Codebase where
  catalog : Catalog
  /-- The outlines of the sources by the components of their paths. -/
  outlines : List (List FilePath.Component × Outline)

namespace Codebase

def sameExtension (left right : String) : Bool :=
  left.toList.map Char.toLower == right.toList.map Char.toLower

/-- The file has one of the given extensions, in whatever case of ASCII letters. -/
def isHeader (extensions : List String) (relativePath : String) : Bool :=
  match (FilePath.mk relativePath).extension? with
  | some extension => extensions.any (sameExtension extension)
  | none => false

def addSource (headerExtensions : List String) (codebase : Codebase) (source : Source) : Codebase :=
  let outline := Outline.ofText source.text
  { catalog := codebase.catalog.add outline (isHeader headerExtensions source.relativePath)
    outlines := (source.path.components, outline) :: codebase.outlines }

/-- Catalog the texts of further headers, which all share their using-statements, and the sources. -/
def ofSources (headers headerExtensions : List String) (sources : List Source) : Codebase :=
  let catalog := headers.foldl (fun catalog text => catalog.add (Outline.ofText text) true)
    Catalog.builtin
  sources.foldl (addSource headerExtensions) ⟨catalog, []⟩

/-- The outline kept for the path of a source, the latest one; else the outline of its text. -/
def outline (codebase : Codebase) (source : Source) : Outline :=
  (codebase.outlines.lookup source.path.components).getD (Outline.ofText source.text)

def environment (codebase : Codebase) (source : Source) : Environment :=
  Environment.ofOutline (codebase.outline source) codebase.catalog

def analyze (codebase : Codebase) (source : Source) : Matches :=
  Matches.ofEnvironment (codebase.environment source)

/-- What the mention around an offset refers to. -/
def declarationAt (codebase : Codebase) (source : Source) (offset : Nat) : Option Declaration :=
  let environment := codebase.environment source
  match environment.outline.mentions.find? (·.chain.span.Contains offset) with
  | none => none
  | some mention =>
      match environment.resolve mention with
      | .found resolved => some resolved.declaration
      | _ => none

/-- The named namespace around an offset. -/
def contextAt (codebase : Codebase) (source : Source) (offset : Nat) : Option NamespacePath :=
  let outline := codebase.outline source
  outline.contextOf (outline.scopeAt offset)

end Codebase

end Requalify
