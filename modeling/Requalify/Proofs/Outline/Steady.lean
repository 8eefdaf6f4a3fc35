import Requalify.Outline.Reading

/-!
Changes of a draft that keep the stack of scopes and do not care where type definitions have begun. Where they
have begun matters at their ends only, so it may be known by index or by offset.
-/

namespace Requalify

/-- The frame with its type definition placed elsewhere. -/
def Frame.relocate (place : Nat → Nat) (frame : Frame) : Frame :=
  { frame with typedefStart := frame.typedefStart.map place }

namespace Draft

def relocate (place : Nat → Nat) (draft : Draft) : Draft :=
  { draft with
    frame := draft.frame.relocate place
    outer := draft.outer.map (Frame.relocate place) }

/-- Behind a statement no type definition has begun, and no name is being declared. -/
def forgetStatement (draft : Draft) : Draft :=
  { draft with frame := { draft.frame with typedefStart := none, declaring := none } }

/-- The change keeps the stack of scopes, and does not care where type definitions have begun. -/
structure Steady (change : Draft → Draft) : Prop where
  relocate : ∀ place draft, change (draft.relocate place) = (change draft).relocate place
  outer : ∀ draft, (change draft).outer = draft.outer
  typedefStart : ∀ draft, (change draft).frame.typedefStart = draft.frame.typedefStart

namespace Steady

theorem same : Steady fun draft => draft :=
  ⟨fun _ _ => rfl, fun _ => rfl, fun _ => rfl⟩

theorem after {first second : Draft → Draft} (steady : Steady second) (steady' : Steady first) :
    Steady fun draft => second (first draft) where
  relocate place draft := by rw [steady'.relocate, steady.relocate]
  outer draft := by rw [steady.outer, steady'.outer]
  typedefStart draft := by rw [steady.typedefStart, steady'.typedefStart]

theorem setOpening (opening : Option Opening) : Steady fun draft => { draft with opening := opening } :=
  ⟨fun _ _ => rfl, fun _ => rfl, fun _ => rfl⟩

theorem setParked (parked : List (String × Nat)) : Steady fun draft => { draft with parked := parked } :=
  ⟨fun _ _ => rfl, fun _ => rfl, fun _ => rfl⟩

theorem setParens (parens : Nat) : Steady (·.setParens parens) :=
  ⟨fun _ _ => rfl, fun _ => rfl, fun _ => rfl⟩

theorem setDeclaring (declaring : Option Nat) :
    Steady fun draft => { draft with frame := { draft.frame with declaring := declaring } } :=
  ⟨fun _ _ => rfl, fun _ => rfl, fun _ => rfl⟩

theorem setAwaits (awaits : Bool) :
    Steady fun draft => { draft with frame := { draft.frame with awaitsEnumerator := awaits } } :=
  ⟨fun _ _ => rfl, fun _ => rfl, fun _ => rfl⟩

theorem dropMentions (keeps : Mention → Bool) :
    Steady fun draft => { draft with mentions := draft.mentions.filter keeps } :=
  ⟨fun _ _ => rfl, fun _ => rfl, fun _ => rfl⟩

theorem mention (chain : NameChain) (lead : MentionLead) : Steady (·.mention chain lead) :=
  ⟨fun _ _ => rfl, fun _ => rfl, fun _ => rfl⟩

theorem recordUsing (kind : UsingKind) (keyword : Token) (target : NameChain) (newName : Option String) :
    Steady (·.recordUsing kind keyword target newName) :=
  ⟨fun _ _ => rfl, fun _ => rfl, fun _ => rfl⟩

/-- The change may go by anything that does not depend on where type definitions have begun. -/
theorem byKey {κ : Type} (key : Draft → κ) (change : κ → Draft → Draft)
    (blind : ∀ place draft, key (draft.relocate place) = key draft) (steady : ∀ value, Steady (change value)) :
    Steady fun draft => change (key draft) draft where
  relocate place draft := by rw [blind, (steady _).relocate]
  outer draft := (steady _).outer draft
  typedefStart draft := (steady _).typedefStart draft

theorem addDeclaration (entry : ScopedDeclaration) :
    Steady fun draft => { draft with declarations := entry :: draft.declarations } :=
  ⟨fun _ _ => rfl, fun _ => rfl, fun _ => rfl⟩

theorem addBinding (entry : Binding) : Steady fun draft => { draft with bindings := entry :: draft.bindings } :=
  ⟨fun _ _ => rfl, fun _ => rfl, fun _ => rfl⟩

theorem park (entry : String × Nat) : Steady fun draft => { draft with parked := entry :: draft.parked } :=
  ⟨fun _ _ => rfl, fun _ => rfl, fun _ => rfl⟩

theorem declare (name : NameToken) (kind : DeclarationKind) : Steady (·.declare name kind) := by
  refine byKey (fun draft => (draft.frame.kind, draft.frame.parens, draft.frame.scope))
    (fun (around, parens, scope) draft =>
      if around.holdsMembers && parens == 0 then
        { draft with declarations := ⟨name.text, kind, scope, name.span⟩ :: draft.declarations }
      else if 0 < parens && (around.holdsMembers || around == .record) then
        { draft with parked := (name.text, name.span.start) :: draft.parked }
      else { draft with bindings := ⟨name.text, scope, name.span.start⟩ :: draft.bindings })
    (fun _ _ => rfl) fun (around, parens, scope) => ?_
  dsimp only
  split
  next => exact addDeclaration _
  next =>
    split
    next => exact park _
    next => exact addBinding _

theorem declareVariable (name : NameToken) (rest : List Token) : Steady (·.declareVariable name rest) := by
  refine byKey (fun draft => (draft.frame.typedefStart.isSome, draft.frame.parens))
    (fun (inTypedef, parens) draft =>
      let declared := if inTypedef then draft
        else if parens = 0 && Token.startsWith rest "(" then draft.declare name .function
        else draft.declare name .variable
      { declared with frame := { declared.frame with declaring := some parens } })
    (fun place draft => ?_) fun (inTypedef, parens) => ?_
  · exact congrArg (·, draft.frame.parens) Option.isSome_map
  · refine (setDeclaring (some parens)).after ?_
    split
    next => exact same
    next =>
      split
      next => exact declare name .function
      next => exact declare name .variable

theorem declareEnumerator (name : NameToken) : Steady (·.declareEnumerator name) := by
  let change (around? : Option (ScopeKind × Nat)) (draft : Draft) : Draft :=
    let draft := { draft with frame := { draft.frame with awaitsEnumerator := false } }
    match around? with
    | none => draft
    | some (kind, scope) =>
        if kind.holdsMembers then
          { draft with declarations := ⟨name.text, .enumerator, scope, name.span⟩ :: draft.declarations }
        else { draft with bindings := ⟨name.text, scope, name.span.start⟩ :: draft.bindings }
  let key (draft : Draft) : Option (ScopeKind × Nat) :=
    if draft.frame.kind = .enumeration false then
      draft.outer.head?.map fun around => (around.kind, around.scope)
    else none
  have byAround : (·.declareEnumerator name) = fun draft => change (key draft) draft := by
    funext draft
    obtain ⟨size, scopes, namespaces, declarations, bindings, usings, anonymous, mentions,
      ⟨scope, kind, path, parens, typedefStart, declaring, awaits⟩, outer, opening, parked⟩ := draft
    match kind, outer with
    | .enumeration false, around :: outer => rfl
    | .enumeration false, [] => rfl
    | .enumeration true, outer => rfl
    | .global, outer | .named _, outer | .anonymous, outer | .linkage, outer | .record, outer
    | .block, outer => rfl
  rw [byAround]
  refine byKey key change (fun place draft => ?_) fun around? => ?_
  · have head : (draft.relocate place).outer.head? = draft.outer.head?.map (Frame.relocate place) :=
      List.head?_map
    change (if draft.frame.kind = .enumeration false then _ else none) = key draft
    rw [head, Option.map_map]
    rfl
  · match around? with
    | none => exact setAwaits false
    | some (kind, scope) =>
        have placed : Steady fun draft => if kind.holdsMembers then
            { draft with declarations := ⟨name.text, .enumerator, scope, name.span⟩ :: draft.declarations }
            else { draft with bindings := ⟨name.text, scope, name.span.start⟩ :: draft.bindings } := by
          split
          next => exact addDeclaration _
          next => exact addBinding _
        exact placed.after (setAwaits false)

theorem finishTypedef (tokens : List Token) : Steady (·.finishTypedef tokens) := by
  unfold Draft.finishTypedef
  split
  next => exact same
  next => exact (declare _ _).after (dropMentions _)

end Steady

theorem relocate_openScope (place : Nat → Nat) (draft : Draft) (brace : Token) (afterName : Bool) :
    (draft.relocate place).openScope brace afterName = (draft.openScope brace afterName).relocate place := by
  obtain ⟨size, scopes, namespaces, declarations, bindings, usings, anonymous, mentions, frame, outer,
    opening, parked⟩ := draft
  match opening, afterName with
  | none, true => rfl
  | none, false => rfl
  | some (.named _), _ | some (.anonymous _), _ | some .linkage, _ | some .record, _
  | some (.enumeration _), _ => rfl

theorem finish_relocate (place : Nat → Nat) (draft : Draft) : (draft.relocate place).finish = draft.finish := by
  have unclosed : (draft.relocate place).outer.length = draft.outer.length := List.length_map ..
  rw [finish, finish, unclosed]
  rfl

end Draft

end Requalify
