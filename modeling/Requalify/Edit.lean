import Requalify.Matches
import Requalify.ModuleName
import Requalify.Patch
import Requalify.Qualification
import Requalify.Text.Removal
import Requalify.WrittenQualifier

/-!
The edit that each match asks for. Whether there is one, and what it is, depends on the source, the
match and the policy alone, never on other edits.
-/

namespace Requalify

/-- A patch with the offset of the construct that causes it. -/
structure Edit where
  patch : Patch
  trigger : Nat
  deriving DecidableEq, Inhabited

namespace Edit

def qualifyLabel : String := "inline namespace"

def removeUsingLabel : String := "remove using"

def nameNamespaceLabel : String := "anon namespace"

/-- Qualify a reference; there is nothing to spell for a declaration in the global namespace. -/
def ofReference (policy : Policy) (source : Source) (reference : Reference) : Option Edit :=
  let declaration := reference.declaration
  if declaration.path.isGlobal then none
  else
    let written := WrittenQualifier.read source.text reference.node.qualifierSpan
    match Qualification.resolve declaration.path declaration.name written.path reference.context
        policy with
    | .unchanged => none
    | .insert text =>
        some ⟨Patch.insert written.insertionPoint text qualifyLabel, reference.node.start⟩
    | .replace count text =>
        some ⟨Patch.replace (written.leadingSpan count) text qualifyLabel, reference.node.start⟩

/-- Remove a using-statement that names an eligible namespace. -/
def ofUsing (policy : Policy) (source : Source) (statement : UsingStatement) : Option Edit :=
  match statement.extent? source.text with
  | none => none
  | some extent =>
      if policy.excludesNamespace (NamespacePath.parse (source.slice extent.target)) then none
      else
        let removal := Text.expandRemoval source.text.toList extent.statement
        some ⟨Patch.remove removal removeUsingLabel, statement.start⟩

/-- Write the module name behind the keyword of an anonymous namespace. -/
def ofAnonymousNamespace (source : Source) (keyword : Span) : Edit :=
  ⟨Patch.insert keyword.stop (" " ++ moduleName source.relativePath) nameNamespaceLabel,
    keyword.start⟩

def startsAbsolute (source : Source) (offset : Nat) : Bool :=
  match Text.splitAt? source.text.toList offset with
  | some (_, ':' :: ':' :: _) => true
  | _ => false

/-- Qualify a use with the module name; a leading `::` serves as the separator. -/
def ofAnonymousReference (source : Source) (reference : AnonymousReference) : Edit :=
  let start := reference.node.start
  let name := moduleName source.relativePath
  let text := if startsAbsolute source start then name else name ++ NamespacePath.separator
  ⟨Patch.insert start text qualifyLabel, start⟩

end Edit

inductive Tool where
  /-- Qualify names and drop the using-statements that made them visible. -/
  | inlineNamespaces
  /-- Name anonymous namespaces after their file and qualify the uses outside them. -/
  | disambiguateSymbols
  deriving DecidableEq, Inhabited

namespace Tool

def name : Tool → String
  | inlineNamespaces => "inline-namespaces"
  | disambiguateSymbols => "disambiguate-symbols"

def ofName? (name : String) : Option Tool :=
  [inlineNamespaces, disambiguateSymbols].find? (·.name == name)

/-- The edits for the matches of one source, one entry for each match, in the order of recording. -/
def edits (tool : Tool) (policy : Policy) (source : Source) (found : Matches) : List (Option Edit) :=
  match tool with
  | inlineNamespaces =>
      found.references.map (Edit.ofReference policy source) ++
        found.usings.map (Edit.ofUsing policy source)
  | disambiguateSymbols =>
      found.anonymousNamespaces.map (fun keyword => some (Edit.ofAnonymousNamespace source keyword)) ++
        found.anonymousReferences.map fun use => some (Edit.ofAnonymousReference source use)

end Tool

end Requalify
