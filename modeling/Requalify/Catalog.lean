import Requalify.Outline

/-!
The names of many files together: nested namespaces, the members of each namespace, and the
using-statements at namespace scope in those files whose using-statements reach the files that include
them. What lies in anonymous namespaces belongs to its file alone and is left out. Of several entries
for one name the first counts.
-/

namespace Requalify

/-- A namespace path as it is written. -/
structure WrittenPath where
  /-- With a leading `::`. -/
  absolute : Bool
  path : NamespacePath
  deriving DecidableEq, Inhabited

/-- The name of a namespace inside another one, and the path that it stands for: an inline namespace
stands for the one around it. -/
structure NestedNamespace where
  parent : NamespacePath
  name : String
  path : NamespacePath
  deriving DecidableEq, Inhabited

/-- A name that a using-statement adds to the namespace `owner`. -/
structure NamedTarget where
  owner : NamespacePath
  name : String
  target : WrittenPath
  deriving DecidableEq, Inhabited

/-- A using-directive in the namespace `owner`. -/
structure DirectiveTarget where
  owner : NamespacePath
  target : WrittenPath
  deriving DecidableEq, Inhabited

structure Catalog where
  namespaces : List NestedNamespace
  members : List Declaration
  imports : List NamedTarget
  directives : List DirectiveTarget
  aliases : List NamedTarget
  deriving DecidableEq, Inhabited

namespace Catalog

def empty : Catalog := ⟨[], [], [], [], []⟩

/-! Adding a file. -/

def nestedOf (definition : NamespaceDefinition) : NestedNamespace where
  parent := definition.parent
  name := definition.name
  path := if definition.isInline then definition.parent else definition.parent.child definition.name

/-- The declaration that other files see; none inside anonymous namespaces. -/
def memberOf? (outline : Outline) (declared : ScopedDeclaration) : Option Declaration :=
  if outline.isInAnonymous declared.scope then none
  else some ⟨declared.name, (outline.scope declared.scope).path, declared.kind⟩

/-- The using-statements that other files see. -/
def sharedUsings (outline : Outline) : List ScopedUsing :=
  outline.usings.filter fun entry =>
    (outline.scope entry.scope).kind.holdsMembers && !outline.isInAnonymous entry.scope

def writtenTarget (entry : ScopedUsing) : WrittenPath :=
  ⟨entry.absolute, entry.target⟩

def importOf? (outline : Outline) (entry : ScopedUsing) : Option NamedTarget :=
  match entry.statement.kind, entry.target.last? with
  | .declaration, some name => some ⟨(outline.scope entry.scope).path, name, writtenTarget entry⟩
  | _, _ => none

def directiveOf? (outline : Outline) (entry : ScopedUsing) : Option DirectiveTarget :=
  match entry.statement.kind with
  | .directive => some ⟨(outline.scope entry.scope).path, writtenTarget entry⟩
  | _ => none

def aliasOf? (outline : Outline) (entry : ScopedUsing) : Option NamedTarget :=
  match entry.statement.kind, entry.newName with
  | .namespaceAlias, some name => some ⟨(outline.scope entry.scope).path, name, writtenTarget entry⟩
  | _, _ => none

/-- Add what a file declares, and its using-statements if it shares them. -/
def add (catalog : Catalog) (outline : Outline) (shares : Bool) : Catalog :=
  let usings := if shares then sharedUsings outline else []
  { namespaces := catalog.namespaces ++ outline.namespaces.map nestedOf
    members := catalog.members ++ outline.declarations.filterMap (memberOf? outline)
    imports := catalog.imports ++ usings.filterMap (importOf? outline)
    directives := catalog.directives ++ usings.filterMap (directiveOf? outline)
    aliases := catalog.aliases ++ usings.filterMap (aliasOf? outline) }

/-! Looking names up. -/

/-- The namespace `name` declared directly in `parent`. -/
def child? (catalog : Catalog) (parent : NamespacePath) (name : String) : Option NamespacePath :=
  (catalog.namespaces.find? fun entry => entry.name == name && entry.parent == parent).map (·.path)

/-- The declaration of `name` directly in `owner`. -/
def member? (catalog : Catalog) (owner : NamespacePath) (name : String) : Option Declaration :=
  catalog.members.find? fun declaration => declaration.name == name && declaration.path == owner

def directivesIn (catalog : Catalog) (owner : NamespacePath) : List WrittenPath :=
  (catalog.directives.filter (·.owner == owner)).map (·.target)

def importsIn (catalog : Catalog) (owner : NamespacePath) (name : String) : List WrittenPath :=
  (catalog.imports.filter fun entry => entry.name == name && entry.owner == owner).map (·.target)

def aliasTarget? (catalog : Catalog) (owner : NamespacePath) (name : String) : Option WrittenPath :=
  (catalog.aliases.find? fun entry => entry.name == name && entry.owner == owner).map (·.target)

/-- An alias that needs more than this many aliases to resolve is not resolved. -/
def aliasLimit : Nat := 16

/-- The namespace that `target` names inside `start`, through at most `budget - 1` aliases in a row. The
first name is sought from `start` outwards, or in the global namespace behind a leading `::`. -/
def resolveWithin (catalog : Catalog) (budget : Nat) (start : NamespacePath) (target : WrittenPath) :
    Option NamespacePath :=
  match budget, target.path.segments with
  | 0, _ => none
  | _, [] => none
  | budget + 1, first :: rest =>
      let step (space : NamespacePath) (name : String) : Option NamespacePath :=
        match catalog.child? space name with
        | some child => some child
        | none => (catalog.aliasTarget? space name).bind (catalog.resolveWithin budget space)
      let spaces := if target.absolute then [NamespacePath.globalPath] else start.enclosing
      (spaces.findSome? (step · first)).bind (rest.foldlM step)

/-- The namespace that a written path names inside `start`. -/
def resolve? (catalog : Catalog) (start : NamespacePath) (target : WrittenPath) :
    Option NamespacePath :=
  catalog.resolveWithin (aliasLimit + 1) start target

/-- The namespace that the alias `name` of `owner` stands for. -/
def alias? (catalog : Catalog) (owner : NamespacePath) (name : String) : Option NamespacePath :=
  (catalog.aliasTarget? owner name).bind (catalog.resolveWithin aliasLimit owner)

/-- The namespace that holds what an import names. -/
def importSource? (catalog : Catalog) (owner : NamespacePath) (target : WrittenPath) :
    Option NamespacePath :=
  match target.path.segments.dropLast with
  | [] => if target.absolute then some NamespacePath.globalPath else none
  | qualifier => catalog.resolve? owner ⟨target.absolute, ⟨qualifier⟩⟩

/-- The namespaces whose member `name` is found through `owner`, nearest first. -/
def sources (catalog : Catalog) (name : String) (owner : NamespacePath) : List NamespacePath :=
  (catalog.importsIn owner name).filterMap (catalog.importSource? owner) ++
    (catalog.directivesIn owner).filterMap (catalog.resolve? owner)

/-- How many sources a namespace can have at most. -/
def fanOut (catalog : Catalog) : Nat :=
  catalog.imports.length + catalog.directives.length

theorem sources_length_le (catalog : Catalog) (name : String) (owner : NamespacePath) :
    (catalog.sources name owner).length ≤ catalog.fanOut := by
  have imports := List.length_filterMap_le (catalog.importSource? owner)
    (catalog.importsIn owner name)
  have importsIn : (catalog.importsIn owner name).length ≤ catalog.imports.length := by
    simpa [importsIn] using List.length_filter_le _ catalog.imports
  have directives := List.length_filterMap_le (catalog.resolve? owner) (catalog.directivesIn owner)
  have directivesIn : (catalog.directivesIn owner).length ≤ catalog.directives.length := by
    simpa [directivesIn] using List.length_filter_le _ catalog.directives
  simp only [sources, List.length_append, fanOut]
  omega

def without (owner : NamespacePath) (unseen : List NamespacePath) : List NamespacePath :=
  unseen.filter (· != owner)

theorem length_without_lt {owner : NamespacePath} {unseen : List NamespacePath}
    (member : owner ∈ unseen) : (without owner unseen).length < unseen.length :=
  List.length_filter_lt_length_iff_exists.mpr ⟨owner, member, by simp⟩

/-- Search the pending namespaces, each with its sources in front of the rest; a namespace that is not
among the unseen ones has been searched already. -/
def searchFrom (catalog : Catalog) (name : String) (unseen : List NamespacePath) :
    List NamespacePath → Option Declaration
  | [] => none
  | owner :: pending =>
      if owner ∈ unseen then
        match catalog.member? owner name with
        | some declaration => some declaration
        | none =>
            catalog.searchFrom name (without owner unseen) (catalog.sources name owner ++ pending)
      else catalog.searchFrom name unseen pending
termination_by pending => unseen.length * (catalog.fanOut + 1) + pending.length
decreasing_by
  · have fewer := length_without_lt ‹owner ∈ unseen›
    have bounded := catalog.sources_length_le name owner
    have room : ((without owner unseen).length + 1) * (catalog.fanOut + 1) ≤
        unseen.length * (catalog.fanOut + 1) := Nat.mul_le_mul_right _ fewer
    rw [Nat.add_mul] at room
    simp only [List.length_append, List.length_cons]
    omega
  · simp

/-- Every namespace that a search from `start` can reach. -/
def reachable (catalog : Catalog) (start : NamespacePath) : List NamespacePath :=
  start :: NamespacePath.globalPath :: catalog.namespaces.map (·.path)

/-- The member `name` of a namespace: declared there, imported, or reached through directives. -/
def find? (catalog : Catalog) (owner : NamespacePath) (name : String) : Option Declaration :=
  catalog.searchFrom name (catalog.reachable owner) [owner]

/-- How many nested namespaces have different names or parents. -/
def namespaceCount (catalog : Catalog) : Nat :=
  (catalog.namespaces.map fun entry => (entry.parent, entry.name)).eraseDups.length

/-- How many members have different names or namespaces. -/
def memberCount (catalog : Catalog) : Nat :=
  (catalog.members.map fun declaration => (declaration.path, declaration.name)).eraseDups.length

end Catalog

end Requalify
