import Requalify.Catalog

/-!
What a mention refers to. Names bound in a record or block around it hide everything else. Otherwise the
scopes are searched from the mention outwards: in each scope its imports, and in each namespace the
members of the file's anonymous namespaces there, the members in the catalog, and the members of
namespaces that a directive places there. The names of a qualifier are namespaces or aliases as far as
possible; the first that is neither is the name that is looked up.

The using-statements of a file are resolved once, in the order of the text, and each sees only those
before it.
-/

namespace Requalify

/-- A using-statement and the namespace that it names, or for a using-declaration the namespace that
holds the imported name. -/
structure ResolvedUsing where
  entry : ScopedUsing
  space : Option NamespacePath
  deriving DecidableEq, Inhabited

/-- A directive in effect: lookup finds the members of `nominated` where it reaches `placement`, the
nearest namespace around both the directive and what it names. -/
structure VisibleDirective where
  placement : NamespacePath
  nominated : NamespacePath
  deriving DecidableEq, Inhabited

def VisibleDirective.between (owner nominated : NamespacePath) : VisibleDirective where
  placement := owner.take (owner.commonLength nominated)
  nominated := nominated

/-- A declaration, and whether it stands directly in an anonymous namespace of the file. -/
structure Found where
  declaration : Declaration
  anonymous : Bool
  deriving DecidableEq, Inhabited

structure Resolved where
  declaration : Declaration
  anonymous : Bool
  node : Node
  deriving DecidableEq, Inhabited

inductive Resolution where
  /-- The first name is bound in a record or block around the mention. -/
  | bound
  | found (resolved : Resolved)
  | unresolved
  deriving DecidableEq, Inhabited

/-- A file with all that lookup in it needs. -/
structure Environment where
  outline : Outline
  catalog : Catalog
  usings : List ResolvedUsing

namespace Environment

def isBound (environment : Environment) (scope : Nat) (name : String) : Bool :=
  (environment.outline.ancestors scope).any (environment.outline.binds · name)

/-- The using-statements of one kind directly in a scope and in front of an offset. -/
def usingsIn (environment : Environment) (scope offset : Nat) (kind : UsingKind) :
    List ResolvedUsing :=
  environment.usings.filter fun item =>
    item.entry.statement.kind == kind && item.entry.scope == scope &&
      item.entry.statement.start < offset

/-- The namespace or alias `name` that belongs to `space`. -/
def namespaceMember (environment : Environment) (space : NamespacePath) (name : String) :
    Option (NamespacePath × SpecifierKind) :=
  match environment.catalog.child? space name with
  | some child => some (child, .ofNamespace)
  | none => (environment.catalog.alias? space name).map (·, .ofAlias)

/-- The directives written in one scope, in the file and in shared files. -/
def directivesAt (environment : Environment) (offset level : Nat) : List VisibleDirective :=
  let outline := environment.outline
  let owner := (outline.scope (outline.namespaceOf level)).path
  let written := (environment.usingsIn level offset .directive).filterMap (·.space)
  let shared := match (outline.scope level).kind with
    | .global | .named _ =>
        (environment.catalog.directivesIn (outline.scope level).path).filterMap
          (environment.catalog.resolve? (outline.scope level).path)
    | _ => []
  (written ++ shared).map (VisibleDirective.between owner)

/-- Every directive in effect at an offset in a scope. -/
def visibleDirectives (environment : Environment) (scope offset : Nat) : List VisibleDirective :=
  (environment.outline.ancestors scope).flatMap (environment.directivesAt offset)

/-- The namespace that the latest alias `name` in one scope stands for. -/
def aliasAt (environment : Environment) (offset : Nat) (name : String) (level : Nat) :
    Option NamespacePath :=
  let aliases := (environment.usingsIn level offset .namespaceAlias).filter
    (·.entry.newName == some name)
  aliases.getLast?.bind (·.space)

def namespaceAt (environment : Environment) (offset : Nat) (name : String) (level : Nat) :
    Option (NamespacePath × SpecifierKind) :=
  match environment.aliasAt offset name level with
  | some space => some (space, .ofAlias)
  | none =>
      let scope := environment.outline.scope level
      if scope.kind.isNamespace then environment.namespaceMember scope.path name else none

/-- The namespace `name` as seen from an offset in a scope. -/
def findNamespace (environment : Environment) (scope offset : Nat) (name : String) :
    Option (NamespacePath × SpecifierKind) :=
  match (environment.outline.ancestors scope).findSome? (environment.namespaceAt offset name) with
  | some result => some result
  | none =>
      ((environment.visibleDirectives scope offset).findSome? fun directive =>
        environment.catalog.child? directive.nominated name).map (·, .ofNamespace)

/-- The namespace that a written path names as seen from an offset in a scope. -/
def resolveWritten (environment : Environment) (scope offset : Nat) (target : WrittenPath) :
    Option NamespacePath :=
  match target.path.segments with
  | [] => none
  | first :: rest =>
      let start := if target.absolute then
          environment.namespaceMember NamespacePath.globalPath first
        else environment.findNamespace scope offset first
      start.bind fun (space, _) =>
        rest.foldlM (fun space name => (environment.namespaceMember space name).map (·.1)) space

/-- The namespace of a using-statement, resolved where it is written. -/
def spaceOf (environment : Environment) (entry : ScopedUsing) : Option NamespacePath :=
  let resolve (path : NamespacePath) :=
    environment.resolveWritten entry.scope entry.statement.start ⟨entry.absolute, path⟩
  match entry.statement.kind with
  | .directive | .namespaceAlias => resolve entry.target
  | .declaration =>
      match entry.target.segments.dropLast with
      | [] => if entry.absolute then some NamespacePath.globalPath else none
      | qualifier => resolve ⟨qualifier⟩

def addUsing (environment : Environment) (entry : ScopedUsing) : Environment :=
  { environment with usings := environment.usings ++ [⟨entry, environment.spaceOf entry⟩] }

def ofOutline (outline : Outline) (catalog : Catalog) : Environment :=
  outline.usings.foldl addUsing ⟨outline, catalog, []⟩

/-- The member `name` of the file's anonymous namespaces, and of namespaces in them, in `space`. -/
def fileMember (environment : Environment) (space : NamespacePath) (name : String) : Option Found :=
  let outline := environment.outline
  outline.declarations.findSome? fun declared =>
    if declared.name == name && outline.isInAnonymous declared.scope then
      let owner := outline.scope (outline.namespaceOf declared.scope)
      if owner.path = space then some ⟨⟨name, space, declared.kind⟩, owner.kind == .anonymous⟩
      else none
    else none

/-- The member `name` of a namespace. -/
def qualified (environment : Environment) (space : NamespacePath) (name : String) : Option Found :=
  match environment.fileMember space name with
  | some found => some found
  | none => (environment.catalog.find? space name).map (⟨·, false⟩)

/-- What a using-declaration in one scope imports as `name`. -/
def imported (environment : Environment) (offset : Nat) (name : String) (level : Nat) :
    Option Declaration :=
  let imports := (environment.usingsIn level offset .declaration).filter
    (·.entry.target.last? == some name)
  imports.findSome? fun item =>
    (item.space.bind (environment.qualified · name)).map (·.declaration)

/-- The member `name` that lookup finds at a namespace with the given directives. -/
def memberAt (environment : Environment) (directives : List VisibleDirective) (name : String)
    (scope : Scope) : Option Found :=
  match environment.fileMember scope.path name with
  | some found => some found
  | none =>
      let shared := if scope.kind == .anonymous then none
        else environment.catalog.find? scope.path name
      match shared with
      | some declaration => some ⟨declaration, false⟩
      | none =>
          (directives.filter (·.placement == scope.path)).findSome? fun directive =>
            environment.qualified directive.nominated name

/-- What a name without a qualifier refers to. -/
def unqualified (environment : Environment) (scope offset : Nat) (name : String) : Option Found :=
  let directives := environment.visibleDirectives scope offset
  (environment.outline.ancestors scope).findSome? fun level =>
    match environment.imported offset name level with
    | some declaration => some ⟨declaration, false⟩
    | none =>
        let around := environment.outline.scope level
        if around.kind.isNamespace then environment.memberAt directives name around else none

/-- Read namespaces off the front of a qualifier. The result is the innermost namespace, what was read,
and what is left. -/
def walk (environment : Environment) (scope offset : Nat) (space : Option NamespacePath)
    (passed : List Specifier) :
    List (NameToken × Span) →
      Option NamespacePath × List Specifier × List (NameToken × Span)
  | [] => (space, passed.reverse, [])
  | (name, separator) :: rest =>
      let next := match space with
        | none => environment.findNamespace scope offset name.text
        | some space => environment.namespaceMember space name.text
      match next with
      | some (next, kind) =>
          environment.walk scope offset (some next) (⟨name, separator, kind⟩ :: passed) rest
      | none => (space, passed.reverse, (name, separator) :: rest)

/-- The member `name` of a namespace that a qualifier names. A name that is not known there is taken for
a member all the same, except in the global namespace. -/
def member (environment : Environment) (space : NamespacePath) (name : String) : Option Found :=
  match environment.qualified space name with
  | some found => some found
  | none => if space.isGlobal then none else some ⟨⟨name, space, .unknown⟩, false⟩

/-- The syntax of a mention. The specifiers are namespaces; the first of the names that are left is the
one that is declared. -/
def nodeOf (mention : Mention) (specifiers : List Specifier) (left : List (NameToken × Span))
    (kind : DeclarationKind) : Node :=
  let chain := mention.chain
  match left with
  | (named, separator) :: rest =>
      .nested ⟨chain.leading, specifiers ++ [⟨named, separator, .ofType⟩]⟩
        ((rest.head?.map (·.1)).getD chain.last)
  | [] =>
      let qualifier : Option NameQualifier :=
        if chain.leading.isSome || !specifiers.isEmpty then some ⟨chain.leading, specifiers⟩ else none
      let written : TypeNode :=
        if qualifier.isSome || mention.lead == .typeKeyword then
          .elaborated qualifier (.named chain.last)
        else .named chain.last
      match mention.lead with
      | .constancy => .typeUse (.qualified written)
      | .typeKeyword => .typeUse written
      | .plain => if kind.isType then .typeUse written else .expression qualifier chain.last

def resolve (environment : Environment) (mention : Mention) : Resolution :=
  let chain := mention.chain
  if chain.leading.isNone && environment.isBound mention.scope chain.first.text then .bound
  else
    let start := chain.leading.map fun _ => NamespacePath.globalPath
    let (space, specifiers, left) :=
      environment.walk mention.scope chain.start start [] chain.qualifiers
    let name := ((left.head?.map (·.1)).getD chain.last).text
    let found := match space with
      | none => environment.unqualified mention.scope chain.start name
      | some space => environment.member space name
    match found with
    | none => .unresolved
    | some ⟨declaration, anonymous⟩ =>
        .found ⟨declaration, anonymous, nodeOf mention specifiers left declaration.kind⟩

end Environment

end Requalify
