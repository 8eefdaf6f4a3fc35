import Requalify.Outline
import Requalify.Token.Lookaround

/-!
An outline while its file is being read. Every open scope has a frame, and the frame of the file itself
is never closed. What is found is kept latest first until `Draft.finish`.
-/

namespace Requalify

/-- An open scope. -/
structure Frame where
  scope : Nat
  kind : ScopeKind
  path : NamespacePath
  /-- How many parentheses are open in the scope. -/
  parens : Nat
  /-- The offset of the `typedef` that has begun. -/
  typedefStart : Option Nat
  /-- How many parentheses were open where a name was declared, for further names after a comma. -/
  declaring : Option Nat
  awaitsEnumerator : Bool
  deriving DecidableEq, Inhabited

def Frame.ofScope (id : Nat) (kind : ScopeKind) (path : NamespacePath) : Frame where
  scope := id
  kind := kind
  path := path
  parens := 0
  typedefStart := none
  declaring := none
  awaitsEnumerator := match kind with
    | .enumeration _ => true
    | _ => false

/-- What the next opening brace opens; without any of these it opens a block. -/
inductive Opening where
  /-- The names of a namespace definition, each with whether it is inline. -/
  | named (names : List (String × Bool))
  | anonymous (keyword : Span)
  | linkage
  | record
  | enumeration (closed : Bool)
  deriving DecidableEq

namespace Opening

def kind : Opening → ScopeKind
  | named names => .named (names.getLast?.any (·.2))
  | anonymous _ => .anonymous
  | linkage => .linkage
  | record => .record
  | enumeration closed => .enumeration closed

def pathWithin (path : NamespacePath) (names : List (String × Bool)) : NamespacePath :=
  names.foldl (fun path (name, isInline) => if isInline then path else path.child name) path

def definitions (path : NamespacePath) : List (String × Bool) → List NamespaceDefinition
  | [] => []
  | (name, isInline) :: rest =>
      ⟨path, name, isInline⟩ :: definitions (pathWithin path [(name, isInline)]) rest

end Opening

structure Draft where
  /-- The length of the text. -/
  size : Nat
  scopes : Array Scope
  namespaces : List NamespaceDefinition
  declarations : List ScopedDeclaration
  bindings : List Binding
  usings : List ScopedUsing
  anonymousNamespaces : List Span
  mentions : List Mention
  frame : Frame
  outer : List Frame
  opening : Option Opening
  /-- Parameters, which are bound in the body that follows. -/
  parked : List (String × Nat)
  deriving Inhabited

namespace Draft

def start (size : Nat) : Draft where
  size := size
  scopes := #[⟨.global, none, NamespacePath.globalPath, Span.between 0 (size + 1)⟩]
  namespaces := []
  declarations := []
  bindings := []
  usings := []
  anonymousNamespaces := []
  mentions := []
  frame := Frame.ofScope 0 .global NamespacePath.globalPath
  outer := []
  opening := none
  parked := []

def finish (draft : Draft) : Outline where
  scopes := draft.scopes
  namespaces := draft.namespaces.reverse
  declarations := draft.declarations.reverse
  bindings := draft.bindings.reverse
  usings := draft.usings.reverse
  anonymousNamespaces := draft.anonymousNamespaces.reverse
  mentions := draft.mentions.reverse
  unclosed := draft.outer.length

/-- A declaration is a namespace member outside parentheses, a parameter inside the parentheses of a
namespace or record, and else bound where it stands. -/
def declare (draft : Draft) (name : NameToken) (kind : DeclarationKind) : Draft :=
  let frame := draft.frame
  if frame.kind.holdsMembers && frame.parens == 0 then
    { draft with declarations := ⟨name.text, kind, frame.scope, name.span⟩ :: draft.declarations }
  else if 0 < frame.parens && (frame.kind.holdsMembers || frame.kind == .record) then
    { draft with parked := (name.text, name.span.start) :: draft.parked }
  else
    { draft with bindings := ⟨name.text, frame.scope, name.span.start⟩ :: draft.bindings }

def mention (draft : Draft) (chain : NameChain) (lead : MentionLead) : Draft :=
  { draft with mentions := ⟨chain, draft.frame.scope, lead⟩ :: draft.mentions }

def recordUsing (draft : Draft) (kind : UsingKind) (keyword : Token) (target : NameChain)
    (newName : Option String) : Draft :=
  let statement : UsingStatement := ⟨kind, keyword.start, target.start, target.stop⟩
  let entry : ScopedUsing :=
    ⟨statement, draft.frame.scope, target.leading.isSome, target.path, newName⟩
  { draft with usings := entry :: draft.usings }

/-- Name an enumerator. In an open enumeration it belongs to the scope around. -/
def declareEnumerator (draft : Draft) (name : NameToken) : Draft :=
  let draft := { draft with frame := { draft.frame with awaitsEnumerator := false } }
  match draft.frame.kind, draft.outer with
  | .enumeration false, around :: _ =>
      if around.kind.holdsMembers then
        { draft with
          declarations := ⟨name.text, .enumerator, around.scope, name.span⟩ :: draft.declarations }
      else
        { draft with bindings := ⟨name.text, around.scope, name.span.start⟩ :: draft.bindings }
  | _, _ => draft

/-- What becomes of the parameters where a scope opens. They are bound in a block or record. A value in
braces behind a name is no body and lets them wait. -/
def bindParked (draft : Draft) (id : Nat) (kind : ScopeKind) (afterName : Bool) : Draft :=
  match kind, afterName with
  | .block, true => draft
  | .block, false | .record, _ =>
      { draft with
        bindings := draft.parked.map (fun (name, offset) => ⟨name, id, offset⟩) ++ draft.bindings
        parked := [] }
  | _, _ => { draft with parked := [] }

/-- The names and keywords that an opening adds to what is known of namespaces. -/
def defineNamespaces (draft : Draft) : Option Opening → Draft
  | some (.named names) =>
      { draft with
        namespaces := (Opening.definitions draft.frame.path names).reverse ++ draft.namespaces }
  | some (.anonymous keyword) =>
      { draft with anonymousNamespaces := keyword :: draft.anonymousNamespaces }
  | _ => draft

def pathOf (draft : Draft) : Option Opening → NamespacePath
  | some (.named names) => Opening.pathWithin draft.frame.path names
  | _ => draft.frame.path

def openScope (draft : Draft) (brace : Token) (afterName : Bool) : Draft :=
  let kind := (draft.opening.map Opening.kind).getD .block
  let path := draft.pathOf draft.opening
  let id := draft.scopes.size
  let scope : Scope := ⟨kind, some draft.frame.scope, path, Span.between brace.start draft.size⟩
  let draft := (draft.defineNamespaces draft.opening).bindParked id kind afterName
  { draft with
    scopes := draft.scopes.push scope
    frame := Frame.ofScope id kind path
    outer := draft.frame :: draft.outer
    opening := none }

def closeScope (draft : Draft) (brace : Token) : Draft :=
  match draft.outer with
  | [] => { draft with opening := none }
  | around :: outer =>
      { draft with
        scopes := draft.scopes.modify draft.frame.scope fun scope =>
          { scope with span := Span.between scope.span.start brace.stop }
        frame := around
        outer := outer
        opening := none }

/-- The name in `( * name )`, the first such place in the tokens. -/
def pointerName? : List Token → Option Token
  | first :: second :: name :: last :: rest =>
      if first.isPunctuator "(" && second.isPunctuator "*" && name.isIdentifier &&
          last.isPunctuator ")" then some name
      else pointerName? (second :: name :: last :: rest)
  | _ => none

/-- The nearest name that is outside all brackets. -/
def outerName? (depth : Nat) : List Token → Option Token
  | [] => none
  | token :: before =>
      if token.isPunctuator ")" || token.isPunctuator "]" || token.isPunctuator "\x7d" then
        outerName? (depth + 1) before
      else if token.isPunctuator "(" || token.isPunctuator "[" || token.isPunctuator "\x7b" then
        outerName? (depth - 1) before
      else if depth = 0 && token.isIdentifier then some token
      else outerName? depth before

/-- The name that a type definition introduces; its tokens are given nearest first. -/
def typedefName? (tokens : List Token) : Option Token :=
  match pointerName? tokens.reverse with
  | some name => some name
  | none => outerName? 0 tokens

/-- Declare the name of a finished type definition, which had been taken for a mention. -/
def finishTypedef (draft : Draft) (tokens : List Token) : Draft :=
  match typedefName? tokens with
  | none => draft
  | some token =>
      let draft := { draft with mentions := draft.mentions.filter (·.chain.start != token.start) }
      draft.declare token.name .typeAlias

/-- A semicolon, which ends a statement unless it stands in parentheses. -/
def endStatement (draft : Draft) (before : List Token) : Draft :=
  if draft.frame.parens = 0 then
    let typedefStart := draft.frame.typedefStart
    let draft := { draft with frame := { draft.frame with typedefStart := none, declaring := none } }
    let draft := match typedefStart with
      | some offset => draft.finishTypedef (before.takeWhile fun token => offset < token.start)
      | none => draft
    { draft with opening := none, parked := [] }
  else draft

end Draft

end Requalify
