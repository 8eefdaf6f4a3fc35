import Requalify.Span

/-!
Name uses as written: an expression, a type, or a name in front of `::`. Every node knows where its
qualifier stands; `Node.qualifierSpan` is empty where nothing is written, and then its start is where a
qualifier belongs. A last specifier that names a type is not part of that span.
-/

namespace Requalify

structure NameToken where
  text : String
  span : Span
  deriving DecidableEq, Inhabited

inductive SpecifierKind where
  | ofNamespace
  | ofAlias
  | ofType
  deriving DecidableEq, Inhabited

/-- One `name ::` of a qualifier. -/
structure Specifier where
  name : NameToken
  separator : Span
  kind : SpecifierKind
  deriving DecidableEq, Inhabited

/-- A written qualifier, with the span of its leading `::` if there is one. -/
structure NameQualifier where
  leading : Option Span
  specifiers : List Specifier
  deriving DecidableEq, Inhabited

namespace NameQualifier

def start? (qualifier : NameQualifier) : Option Nat :=
  match qualifier.leading, qualifier.specifiers with
  | some span, _ => some span.start
  | none, specifier :: _ => some specifier.name.span.start
  | none, [] => none

/-- The offset after the last `::`. -/
def stop? (qualifier : NameQualifier) : Option Nat :=
  match qualifier.specifiers.getLast?, qualifier.leading with
  | some specifier, _ => some specifier.separator.stop
  | none, some span => some span.stop
  | none, none => none

def endsInType (qualifier : NameQualifier) : Bool :=
  match qualifier.specifiers.getLast? with
  | some specifier => specifier.kind == .ofType
  | none => false

/-- The offset after the qualifier without its last specifier. -/
def innerStop? (qualifier : NameQualifier) : Option Nat :=
  match qualifier.specifiers with
  | [] => qualifier.stop?
  | specifiers =>
      match specifiers.dropLast.getLast?, qualifier.leading with
      | some specifier, _ => some specifier.separator.stop
      | none, some span => some span.stop
      | none, none => qualifier.start?

def span? (qualifier : NameQualifier) : Option Span := do
  let start ← qualifier.start?
  let stop ← if qualifier.endsInType then qualifier.innerStop? else qualifier.stop?
  return Span.between start stop

end NameQualifier

/-- A type as written, outermost wrapper first. -/
inductive TypeNode where
  /-- With `const` or `volatile`, which have no position of their own. -/
  | qualified (inner : TypeNode)
  /-- With a qualifier or a keyword such as `struct` in front. -/
  | elaborated (qualifier : Option NameQualifier) (inner : TypeNode)
  | named (name : NameToken)
  deriving DecidableEq, Inhabited

namespace TypeNode

def name : TypeNode → NameToken
  | qualified inner => inner.name
  | elaborated _ inner => inner.name
  | named name => name

def start : TypeNode → Nat
  | qualified inner => inner.start
  | elaborated (some qualifier) inner => qualifier.start?.getD inner.start
  | elaborated none inner => inner.start
  | named name => name.span.start

/-- The qualifier of the outermost wrapper that can have one. -/
def qualifier? : TypeNode → Option NameQualifier
  | qualified inner => inner.qualifier?
  | elaborated qualifier _ => qualifier
  | named _ => none

end TypeNode

inductive Node where
  | expression (qualifier : Option NameQualifier) (name : NameToken)
  | typeUse (written : TypeNode)
  /-- A name used as a qualifier of `member`. -/
  | nested (qualifier : NameQualifier) (member : NameToken)
  deriving DecidableEq, Inhabited

namespace Node

def start : Node → Nat
  | expression qualifier name => (qualifier.bind (·.start?)).getD name.span.start
  | typeUse written => written.start
  | nested qualifier member => qualifier.start?.getD member.span.start

def stop : Node → Nat
  | expression _ name => name.span.stop
  | typeUse written => written.name.span.stop
  | nested _ member => member.span.stop

def span (node : Node) : Span :=
  Span.between node.start node.stop

def qualifier? : Node → Option NameQualifier
  | expression qualifier _ => qualifier
  | typeUse written => written.qualifier?
  | nested qualifier _ => some qualifier

/-- Where the namespace qualifier of the node is written, or would be. -/
def qualifierSpan (node : Node) : Span :=
  match node.qualifier?.bind (·.span?) with
  | some span => span
  | none => Span.point node.start

end Node

end Requalify
