import Requalify.Declaration
import Requalify.Node
import Requalify.UsingStatement

/-! What the analysis of one source reports: the constructs that an edit may be needed for. -/

namespace Requalify

/-- A name use that resolves to a declaration at namespace scope. -/
structure Reference where
  node : Node
  declaration : Declaration
  /-- The named namespace around the use; none at global scope and inside anonymous namespaces. -/
  context : Option NamespacePath
  deriving DecidableEq, Inhabited

/-- A use, outside anonymous namespaces, of something declared in an anonymous namespace. -/
structure AnonymousReference where
  node : Node
  declaration : Declaration
  deriving DecidableEq, Inhabited

structure Matches where
  references : List Reference
  usings : List UsingStatement
  /-- The keywords of the anonymous namespaces. -/
  anonymousNamespaces : List Span
  anonymousReferences : List AnonymousReference
  deriving DecidableEq, Inhabited

end Requalify
