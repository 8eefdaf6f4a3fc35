import Requalify.Declaration
import Requalify.NameChain
import Requalify.UsingStatement

/-!
What a file says about names, without their meaning: its scopes, the names that it declares in them, its
using-statements, and the places where a name may refer to something declared elsewhere. Scopes are
numbered in the order in which they open; the file itself is number zero.
-/

namespace Requalify

inductive ScopeKind where
  | global
  | named (isInline : Bool)
  | anonymous
  /-- Declarations with foreign linkage. -/
  | linkage
  | record
  /-- Enumerators of a closed enumeration stay inside it. -/
  | enumeration (closed : Bool)
  /-- Function bodies, compound statements and braced values. -/
  | block
  deriving DecidableEq, Inhabited

namespace ScopeKind

/-- Declarations in such a scope are members of a namespace. -/
def holdsMembers : ScopeKind → Bool
  | global | named _ | anonymous | linkage => true
  | _ => false

def isNamespace : ScopeKind → Bool
  | global | named _ | anonymous => true
  | _ => false

end ScopeKind

structure Scope where
  kind : ScopeKind
  parent : Option Nat
  /-- The named namespaces around the scope and itself; inline and anonymous ones do not count. -/
  path : NamespacePath
  /-- From its opening to its closing brace. -/
  span : Span
  deriving DecidableEq, Inhabited

/-- One name of a namespace definition, inside the namespace `parent`. -/
structure NamespaceDefinition where
  parent : NamespacePath
  name : String
  isInline : Bool
  deriving DecidableEq, Inhabited

/-- A name declared at namespace scope. -/
structure ScopedDeclaration where
  name : String
  kind : DeclarationKind
  scope : Nat
  span : Span
  deriving DecidableEq, Inhabited

/-- A name declared in a record or a block, where it hides namespace members. -/
structure Binding where
  name : String
  scope : Nat
  offset : Nat
  deriving DecidableEq, Inhabited

structure ScopedUsing where
  statement : UsingStatement
  scope : Nat
  /-- The target is written with a leading `::`. -/
  absolute : Bool
  target : NamespacePath
  /-- The name that a namespace alias introduces. -/
  newName : Option String
  deriving DecidableEq, Inhabited

/-- What a name stands behind, as far as it shapes the way the name is written. -/
inductive MentionLead where
  | plain
  /-- `const` or `volatile`. -/
  | constancy
  /-- `class`, `struct`, `union` or `enum`. -/
  | typeKeyword
  deriving DecidableEq, Inhabited

/-- A written name that may refer to something declared elsewhere. -/
structure Mention where
  chain : NameChain
  scope : Nat
  lead : MentionLead
  deriving DecidableEq, Inhabited

structure Outline where
  scopes : Array Scope
  namespaces : List NamespaceDefinition
  declarations : List ScopedDeclaration
  bindings : List Binding
  usings : List ScopedUsing
  /-- The keywords of the anonymous namespaces. -/
  anonymousNamespaces : List Span
  mentions : List Mention
  /-- How many scopes are still open at the end of the file. -/
  unclosed : Nat
  deriving DecidableEq, Inhabited

namespace Outline

def scope (outline : Outline) (id : Nat) : Scope :=
  outline.scopes.getD id default

/-- A scope and the scopes around it, innermost first. -/
def ancestors (outline : Outline) (id : Nat) : List Nat :=
  match (outline.scope id).parent with
  | some parent => if parent < id then id :: outline.ancestors parent else [id]
  | none => [id]

/-- The innermost scope around an offset. -/
def scopeAt (outline : Outline) (offset : Nat) : Nat :=
  ((List.range outline.scopes.size).reverse.find? fun id =>
    (outline.scope id).span.Contains offset).getD 0

/-- The nearest namespace around a scope; blocks of foreign linkage are passed through. -/
def namespaceOf (outline : Outline) (id : Nat) : Nat :=
  ((outline.ancestors id).find? fun id => (outline.scope id).kind.isNamespace).getD 0

/-- The scope is an anonymous namespace or lies in one. -/
def isInAnonymous (outline : Outline) (id : Nat) : Bool :=
  (outline.ancestors id).any fun id => (outline.scope id).kind == .anonymous

/-- The named namespace around a scope; none at global scope and inside anonymous namespaces. -/
def contextOf (outline : Outline) (id : Nat) : Option NamespacePath :=
  let around := outline.scope (outline.namespaceOf id)
  match around.kind with
  | .named _ => if around.path.isGlobal then none else some around.path
  | _ => none

/-- The name is bound directly in the scope. -/
def binds (outline : Outline) (id : Nat) (name : String) : Bool :=
  outline.bindings.any fun binding => binding.scope == id && binding.name == name

end Outline

end Requalify
