import Requalify.NamespacePath

/-! Declared names: what a name use resolves to. -/

namespace Requalify

inductive DeclarationKind where
  | record
  | enumeration
  | enumerator
  | typeAlias
  | function
  | variable
  /-- Known only to live in the namespace that its qualifier names. -/
  | unknown
  deriving DecidableEq, Inhabited

def DeclarationKind.isType : DeclarationKind → Bool
  | .record | .enumeration | .typeAlias => true
  | _ => false

/-- A name and the named namespaces around it; inline namespaces do not show. -/
structure Declaration where
  name : String
  path : NamespacePath
  kind : DeclarationKind
  deriving DecidableEq, Inhabited

end Requalify
