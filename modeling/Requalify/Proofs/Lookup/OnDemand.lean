import Requalify.Resolution

/-!
Lookup that resolves a using-statement each time its namespace is needed, in whatever order the statements
are listed. A search goes from a scope to the one around it, from a statement to those that supply its first
name, from an alias to its target and from a namespace to the sources of its members, and nothing but what
it looks at brings it to an end. All functions here take a limit to how deep their calls are nested, and
beyond it the result is `none`, which is the outer option. A search that comes to an end is one whose result
is the same under all limits that are high enough.
-/

namespace Requalify

namespace OnDemand

/-! Scopes. -/

def ancestors (outline : Outline) : Nat → Nat → Option (List Nat)
  | 0, _ => none
  | limit + 1, id =>
      match (outline.scope id).parent with
      | none => some [id]
      | some parent => do
          let around ← ancestors outline limit parent
          return id :: around

def isBound (outline : Outline) (limit scope : Nat) (name : String) : Option Bool := do
  let levels ← ancestors outline limit scope
  return levels.any (outline.binds · name)

def namespaceOf (outline : Outline) (limit id : Nat) : Option Nat := do
  let levels ← ancestors outline limit id
  return (levels.find? fun id => (outline.scope id).kind.isNamespace).getD 0

def isInAnonymous (outline : Outline) (limit id : Nat) : Option Bool := do
  let levels ← ancestors outline limit id
  return levels.any fun id => (outline.scope id).kind == .anonymous

/-! The catalog. The depth counts the aliases that have been followed. -/

mutual

def aliasAt (catalog : Catalog) :
    Nat → Nat → NamespacePath → String → Option (Option NamespacePath)
  | 0, _, _, _ => none
  | limit + 1, depth, space, name =>
      match catalog.aliasTarget? space name with
      | none => some none
      | some target => targetAt catalog limit (depth + 1) space target

def stepAt (catalog : Catalog) :
    Nat → Nat → NamespacePath → String → Option (Option NamespacePath)
  | 0, _, _, _ => none
  | limit + 1, depth, space, name =>
      match catalog.child? space name with
      | some child => some (some child)
      | none => aliasAt catalog limit depth space name

/-- The namespace `name` in `space` or in the nearest namespace around it that has one. -/
def outwardsAt (catalog : Catalog) :
    Nat → Nat → NamespacePath → String → Option (Option NamespacePath)
  | 0, _, _, _ => none
  | limit + 1, depth, space, name => do
      match ← stepAt catalog limit depth space name with
      | some found => return some found
      | none =>
          match space.parent? with
          | none => return none
          | some around => outwardsAt catalog limit depth around name

def targetAt (catalog : Catalog) :
    Nat → Nat → NamespacePath → WrittenPath → Option (Option NamespacePath)
  | 0, _, _, _ => none
  | limit + 1, depth, start, target =>
      if Catalog.aliasLimit < depth then some none
      else
        match target.path.segments with
        | [] => some none
        | first :: rest => do
            let space ← if target.absolute then stepAt catalog limit depth NamespacePath.globalPath first
              else outwardsAt catalog limit depth start first
            rest.foldlM (fun space name =>
              space.elim (some none) (stepAt catalog limit depth · name)) space

end

/-- The namespace that a written path names inside `start`. -/
def target (catalog : Catalog) (limit : Nat) (start : NamespacePath) (target : WrittenPath) :
    Option (Option NamespacePath) :=
  targetAt catalog limit 0 start target

/-- The namespace that the alias `name` of `owner` stands for. -/
def aliasOf (catalog : Catalog) (limit : Nat) (owner : NamespacePath) (name : String) :
    Option (Option NamespacePath) :=
  aliasAt catalog limit 0 owner name

def importSource (catalog : Catalog) (limit : Nat) (owner : NamespacePath) (written : WrittenPath) :
    Option (Option NamespacePath) :=
  match written.path.segments.dropLast with
  | [] => some (if written.absolute then some NamespacePath.globalPath else none)
  | qualifier => target catalog limit owner ⟨written.absolute, ⟨qualifier⟩⟩

def sources (catalog : Catalog) (limit : Nat) (name : String) (owner : NamespacePath) :
    Option (List NamespacePath) := do
  let imported ← (catalog.importsIn owner name).mapM (importSource catalog limit owner)
  let nominated ← (catalog.directivesIn owner).mapM (target catalog limit owner)
  return imported.filterMap id ++ nominated.filterMap id

/-- The member `name` of `owner`, and the namespaces that have been visited. -/
def memberFrom (catalog : Catalog) (name : String) :
    Nat → List NamespacePath → NamespacePath → Option (Option Declaration × List NamespacePath)
  | 0, _, _ => none
  | limit + 1, visited, owner =>
      if owner ∈ visited then some (none, visited)
      else
        match catalog.member? owner name with
        | some declaration => some (some declaration, owner :: visited)
        | none => do
            let spaces ← sources catalog limit name owner
            spaces.foldlM (fun (found, visited) space =>
              match found with
              | some declaration => some (some declaration, visited)
              | none => memberFrom catalog name limit visited space) (none, owner :: visited)

def find (catalog : Catalog) (limit : Nat) (owner : NamespacePath) (name : String) :
    Option (Option Declaration) := do
  let (found, _) ← memberFrom catalog name limit [] owner
  return found

def namespaceMember (catalog : Catalog) (limit : Nat) (space : NamespacePath) (name : String) :
    Option (Option (NamespacePath × SpecifierKind)) :=
  match catalog.child? space name with
  | some child => some (some (child, .ofNamespace))
  | none => do
      let found ← aliasOf catalog limit space name
      return found.map (·, .ofAlias)

/-! The using-statements of the file. -/

/-- The using-statements of one kind directly in a scope and in front of an offset. -/
def usingsIn (outline : Outline) (scope offset : Nat) (kind : UsingKind) : List ScopedUsing :=
  outline.usings.filter fun entry =>
    entry.statement.kind == kind && entry.scope == scope && entry.statement.start < offset

def sharedDirectives (outline : Outline) (catalog : Catalog) (limit level : Nat) :
    Option (List NamespacePath) := do
  let owner := (outline.scope level).path
  match (outline.scope level).kind with
  | .global | .named _ =>
      let nominated ← (catalog.directivesIn owner).mapM (target catalog limit owner)
      return nominated.filterMap id
  | _ => return []

mutual

/-- The namespace of a using-statement, resolved where it is written. -/
def spaceOf (outline : Outline) (catalog : Catalog) :
    Nat → ScopedUsing → Option (Option NamespacePath)
  | 0, _ => none
  | limit + 1, entry =>
      match entry.statement.kind with
      | .directive | .namespaceAlias =>
          resolveWritten outline catalog limit entry.scope entry.statement.start
            ⟨entry.absolute, entry.target⟩
      | .declaration =>
          match entry.target.segments.dropLast with
          | [] => some (if entry.absolute then some NamespacePath.globalPath else none)
          | qualifier =>
              resolveWritten outline catalog limit entry.scope entry.statement.start
                ⟨entry.absolute, ⟨qualifier⟩⟩

def resolveWritten (outline : Outline) (catalog : Catalog) :
    Nat → Nat → Nat → WrittenPath → Option (Option NamespacePath)
  | 0, _, _, _ => none
  | limit + 1, scope, offset, target =>
      match target.path.segments with
      | [] => some none
      | first :: rest => do
          let start ← if target.absolute then
              namespaceMember catalog limit NamespacePath.globalPath first
            else findNamespace outline catalog limit scope offset first
          rest.foldlM (fun space name => space.elim (some none) fun space => do
            let found ← namespaceMember catalog limit space name
            return found.map (·.1)) (start.map (·.1))

/-- The namespace `name` as seen from an offset in a scope. -/
def findNamespace (outline : Outline) (catalog : Catalog) :
    Nat → Nat → Nat → String → Option (Option (NamespacePath × SpecifierKind))
  | 0, _, _, _ => none
  | limit + 1, scope, offset, name => do
      let levels ← ancestors outline limit scope
      match ← levels.findSomeM? (namespaceAt outline catalog limit offset name) with
      | some result => return some result
      | none =>
          let directives ← visibleDirectives outline catalog limit scope offset
          return (directives.findSome? fun directive => catalog.child? directive.nominated name).map
            (·, .ofNamespace)

def namespaceAt (outline : Outline) (catalog : Catalog) :
    Nat → Nat → String → Nat → Option (Option (NamespacePath × SpecifierKind))
  | 0, _, _, _ => none
  | limit + 1, offset, name, level => do
      let aliases := (usingsIn outline level offset .namespaceAlias).filter (·.newName == some name)
      let space ← aliases.getLast?.elim (some none) (spaceOf outline catalog limit)
      match space with
      | some space => return some (space, .ofAlias)
      | none =>
          let scope := outline.scope level
          if scope.kind.isNamespace then namespaceMember catalog limit scope.path name else return none

/-- Every directive in effect at an offset in a scope. -/
def visibleDirectives (outline : Outline) (catalog : Catalog) :
    Nat → Nat → Nat → Option (List VisibleDirective)
  | 0, _, _ => none
  | limit + 1, scope, offset => do
      let levels ← ancestors outline limit scope
      let directives ← levels.mapM (directivesAt outline catalog limit offset)
      return directives.flatten

def directivesAt (outline : Outline) (catalog : Catalog) :
    Nat → Nat → Nat → Option (List VisibleDirective)
  | 0, _, _ => none
  | limit + 1, offset, level => do
      let written ← (usingsIn outline level offset .directive).mapM (spaceOf outline catalog limit)
      let shared ← sharedDirectives outline catalog limit level
      let owner ← namespaceOf outline limit level
      return (written.filterMap id ++ shared).map
        (VisibleDirective.between (outline.scope owner).path)

end

/-! Names. -/

def fileMember (outline : Outline) (limit : Nat) (space : NamespacePath) (name : String) :
    Option (Option Found) :=
  outline.declarations.findSomeM? fun declared => do
    if declared.name == name && (← isInAnonymous outline limit declared.scope) then
      let owner := outline.scope (← namespaceOf outline limit declared.scope)
      if owner.path = space then
        return some ⟨⟨name, space, declared.kind⟩, owner.kind == .anonymous⟩
      else return none
    else return none

def qualified (outline : Outline) (catalog : Catalog) (limit : Nat) (space : NamespacePath)
    (name : String) : Option (Option Found) := do
  match ← fileMember outline limit space name with
  | some found => return some found
  | none =>
      let found ← find catalog limit space name
      return found.map (⟨·, false⟩)

/-- What a using-declaration in one scope imports as `name`. -/
def imported (outline : Outline) (catalog : Catalog) (limit offset : Nat) (name : String) (level : Nat) :
    Option (Option Declaration) :=
  let imports := (usingsIn outline level offset .declaration).filter (·.target.last? == some name)
  imports.findSomeM? fun entry => do
    match ← spaceOf outline catalog limit entry with
    | none => return none
    | some space =>
        let found ← qualified outline catalog limit space name
        return found.map (·.declaration)

def memberAt (outline : Outline) (catalog : Catalog) (limit : Nat)
    (directives : List VisibleDirective) (name : String) (scope : Scope) : Option (Option Found) := do
  match ← fileMember outline limit scope.path name with
  | some found => return some found
  | none =>
      let shared ← if scope.kind == .anonymous then some none else find catalog limit scope.path name
      match shared with
      | some declaration => return some ⟨declaration, false⟩
      | none =>
          (directives.filter (·.placement == scope.path)).findSomeM? fun directive =>
            qualified outline catalog limit directive.nominated name

/-- What a name without a qualifier refers to. -/
def unqualified (outline : Outline) (catalog : Catalog) (limit scope offset : Nat) (name : String) :
    Option (Option Found) := do
  let directives ← visibleDirectives outline catalog limit scope offset
  let levels ← ancestors outline limit scope
  levels.findSomeM? fun level => do
    match ← imported outline catalog limit offset name level with
    | some declaration => return some ⟨declaration, false⟩
    | none =>
        let around := outline.scope level
        if around.kind.isNamespace then memberAt outline catalog limit directives name around
        else return none

def walk (outline : Outline) (catalog : Catalog) (limit scope offset : Nat)
    (space : Option NamespacePath) (passed : List Specifier) :
    List (NameToken × Span) →
      Option (Option NamespacePath × List Specifier × List (NameToken × Span))
  | [] => some (space, passed.reverse, [])
  | (name, separator) :: rest => do
      let next ← match space with
        | none => findNamespace outline catalog limit scope offset name.text
        | some space => namespaceMember catalog limit space name.text
      match next with
      | some (next, kind) =>
          walk outline catalog limit scope offset (some next) (⟨name, separator, kind⟩ :: passed) rest
      | none => return (space, passed.reverse, (name, separator) :: rest)

def member (outline : Outline) (catalog : Catalog) (limit : Nat) (space : NamespacePath) (name : String) :
    Option (Option Found) := do
  match ← qualified outline catalog limit space name with
  | some found => return some found
  | none => return if space.isGlobal then none else some ⟨⟨name, space, .unknown⟩, false⟩

def resolve (outline : Outline) (catalog : Catalog) (limit : Nat) (mention : Mention) : Option Resolution := do
  let chain := mention.chain
  if chain.leading.isNone && (← isBound outline limit mention.scope chain.first.text) then return .bound
  else
    let start := chain.leading.map fun _ => NamespacePath.globalPath
    let (space, specifiers, left) ←
      walk outline catalog limit mention.scope chain.start start [] chain.qualifiers
    let name := ((left.head?.map (·.1)).getD chain.last).text
    let found ← space.elim (unqualified outline catalog limit mention.scope chain.start name)
      (member outline catalog limit · name)
    match found with
    | none => return .unresolved
    | some ⟨declaration, anonymous⟩ =>
        return .found
          ⟨declaration, anonymous, Environment.nodeOf mention specifiers left declaration.kind⟩

end OnDemand

end Requalify
