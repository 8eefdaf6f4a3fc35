import Requalify.Proofs.Outline.Laminar
import Requalify.Proofs.Outline.Lookahead

/-!
Reading two texts that differ in some stretches only. While the same tokens are read, the drafts go on to say
the same: a step that ends in front of the next difference goes as far in both texts, and adds the same to
both drafts.
-/

namespace Requalify

/-- Where the texts begin to be the same: the tokens do not start before `low` and `low'`, the frames of
`base` and `base'` stay open, and of the scopes without counterpart `added` have been opened. -/
structure Floor where
  low : Nat
  low' : Nat
  base : List Frame
  base' : List Frame
  added : Nat

structure Frame.Follows (unfolding : Unfolding) (floor : Floor) (old new : Frame) : Prop where
  scope : new.scope = unfolding.move old.scope
  kind : new.kind = old.kind
  path : new.path = old.path
  parens : new.parens = old.parens
  typedefStart : Option.Rel (fun offset offset' =>
    unfolding.same offset offset' ∧ floor.low ≤ offset ∧ floor.low' ≤ offset')
    old.typedefStart new.typedefStart
  declaring : new.declaring = old.declaring
  awaitsEnumerator : new.awaitsEnumerator = old.awaitsEnumerator

/-- The scope `id` and its counterpart; what is around the scope that is unfolded is not compared. -/
structure Scope.Follows (unfolding : Unfolding) (id : Nat) (old new : Scope) : Prop where
  kind : new.kind = old.kind
  path : new.path = old.path
  parent : id ≠ unfolding.scope → new.parent = old.parent.map unfolding.move

/-- An opening without its place. -/
def Opening.shape : Opening → Opening
  | .anonymous _ => .anonymous (Span.between 0 0)
  | opening => opening

/-- `new` says what `old` does; `depth` scopes are open above the lowest frame that is the same. -/
structure Draft.Follows (unfolding : Unfolding) (floor : Floor) (depth : Nat) (old new : Draft) : Prop where
  size : new.scopes.size = old.scopes.size + floor.added
  scopes : ∀ id < old.scopes.size,
    (old.finish.scope id).Follows unfolding id (new.finish.scope (unfolding.move id))
  declarations : new.declarations.map (fun entry => (entry.name, entry.kind, entry.scope)) =
    old.declarations.map fun entry => (entry.name, entry.kind, unfolding.move entry.scope)
  bindings : new.bindings.map (fun entry => (entry.name, entry.scope)) =
    old.bindings.map fun entry => (entry.name, unfolding.move entry.scope)
  usings : List.Forall₂ (ScopedUsing.Follows unfolding) old.usings new.usings
  mentions : List.Forall₂ (Mention.Follows unfolding) old.mentions new.mentions
  opening : new.opening.map Opening.shape = old.opening.map Opening.shape
  parked : new.parked.map (·.1) = old.parked.map (·.1)
  frame : old.frame.Follows unfolding floor new.frame
  outer : ∃ live live', old.outer = live ++ floor.base ∧ new.outer = live' ++ floor.base' ∧
    List.Forall₂ (Frame.Follows unfolding floor) live live' ∧ live.length = depth ∧
      ((live.map (·.kind)).getLastD old.frame.kind).isNamespace = true

theorem Draft.declareEnumerator_of_namespace {draft : Draft}
    (isNamespace : draft.frame.kind.isNamespace = true) (name : NameToken) :
    draft.declareEnumerator name =
      { draft with frame := { draft.frame with awaitsEnumerator := false } } := by
  unfold declareEnumerator
  dsimp only
  split
  next kind _ => simp [kind, ScopeKind.isNamespace] at isNamespace
  next => rfl

theorem Draft.declareEnumerator_of_outer {draft : Draft} {around : Frame} {outer : List Frame}
    (parts : draft.outer = around :: outer) (name : NameToken) :
    draft.declareEnumerator name =
      let draft := { draft with frame := { draft.frame with awaitsEnumerator := false } }
      if draft.frame.kind = .enumeration false then
        if around.kind.holdsMembers then
          { draft with
            declarations := ⟨name.text, .enumerator, around.scope, name.span⟩ :: draft.declarations }
        else
          { draft with bindings := ⟨name.text, around.scope, name.span.start⟩ :: draft.bindings }
      else draft := by
  unfold declareEnumerator
  dsimp only
  rw [parts]
  by_cases kind : draft.frame.kind = .enumeration false
  · simp [kind]
  · rw [if_neg kind]
    split
    next found _ => exact absurd found kind
    next => rfl

namespace Draft.Follows

variable {unfolding : Unfolding} {floor : Floor} {depth : Nat} {old new : Draft}
  (follows : old.Follows unfolding floor depth new)

include follows

theorem setOpening {opening opening' : Option Opening}
    (same : opening'.map Opening.shape = opening.map Opening.shape) :
    Follows unfolding floor depth { old with opening := opening } { new with opening := opening' } :=
  { follows with opening := same }

theorem setParked {parked parked' : List (String × Nat)} (same : parked'.map (·.1) = parked.map (·.1)) :
    Follows unfolding floor depth { old with parked := parked } { new with parked := parked' } :=
  { follows with parked := same }

theorem forget : Follows unfolding floor depth { old with opening := none, parked := [] }
    { new with opening := none, parked := [] } :=
  { follows with
    opening := rfl
    parked := rfl }

theorem setFrame {frame frame' : Frame} (frames : frame.Follows unfolding floor frame')
    (kind : frame.kind = old.frame.kind) :
    Follows unfolding floor depth { old with frame := frame } { new with frame := frame' } := by
  obtain ⟨live, live', outer, outer', pairs, length, lowest⟩ := follows.outer
  exact { follows with
    frame := frames
    outer := ⟨live, live', outer, outer', pairs, length, by rwa [← kind] at lowest⟩ }

theorem addBinding {name : String} (scope offset offset' : Nat) {scope' : Nat}
    (place : scope' = unfolding.move scope) :
    Follows unfolding floor depth { old with bindings := ⟨name, scope, offset⟩ :: old.bindings }
      { new with bindings := ⟨name, scope', offset'⟩ :: new.bindings } :=
  { follows with bindings := by simp [follows.bindings, place] }

theorem addDeclaration {name : String} {kind : DeclarationKind} {scope scope' : Nat} {span span' : Span}
    (place : scope' = unfolding.move scope) :
    Follows unfolding floor depth
      { old with declarations := ⟨name, kind, scope, span⟩ :: old.declarations }
      { new with declarations := ⟨name, kind, scope', span'⟩ :: new.declarations } :=
  { follows with declarations := by simp [follows.declarations, place] }

theorem declare {name name' : NameToken} (alike : name.Alike unfolding.same name')
    (kind : DeclarationKind) :
    Follows unfolding floor depth (old.declare name kind) (new.declare name' kind) := by
  simp only [Draft.declare, follows.frame.kind, follows.frame.parens, alike.text]
  split_ifs
  · exact follows.addDeclaration follows.frame.scope
  · exact follows.setParked (by simp [follows.parked])
  · exact follows.addBinding _ _ _ follows.frame.scope

theorem declareSingle {chain chain' : NameChain} (alike : chain.Alike unfolding.same chain')
    (kind : DeclarationKind) :
    Follows unfolding floor depth (if chain.isSingle then old.declare chain.last kind else old)
      (if chain'.isSingle then new.declare chain'.last kind else new) := by
  rw [alike.isSingle]
  split
  next => exact follows.declare alike.last kind
  next => exact follows

theorem mention {chain chain' : NameChain} (alike : chain.Alike unfolding.same chain')
    (lead : MentionLead) :
    Follows unfolding floor depth (old.mention chain lead) (new.mention chain' lead) :=
  { follows with mentions := .cons ⟨alike.written, alike.start, follows.frame.scope⟩ follows.mentions }

theorem recordUsing {keyword keyword' : Token} (alike : keyword.Alike unfolding.same keyword')
    {target target' : NameChain} (targets : target.Alike unfolding.same target') (kind : UsingKind)
    (newName : Option String) :
    Follows unfolding floor depth (old.recordUsing kind keyword target newName)
      (new.recordUsing kind keyword' target' newName) :=
  { follows with
    usings := .cons ⟨rfl, alike.start, follows.frame.scope, targets.isSome_leading, targets.path, rfl⟩
      follows.usings }

theorem setParens (parens : Nat) :
    Follows unfolding floor depth (old.setParens parens) (new.setParens parens) :=
  follows.setFrame { follows.frame with parens := rfl } rfl

theorem awaitEnumerator (awaits : Bool) : Follows unfolding floor depth
    { old with frame := { old.frame with awaitsEnumerator := awaits } }
    { new with frame := { new.frame with awaitsEnumerator := awaits } } :=
  follows.setFrame { follows.frame with awaitsEnumerator := rfl } rfl

theorem setDeclaring (declaring : Option Nat) : Follows unfolding floor depth
    { old with frame := { old.frame with declaring := declaring } }
    { new with frame := { new.frame with declaring := declaring } } :=
  follows.setFrame { follows.frame with declaring := rfl } rfl

/-- An enumeration is above the lowest frame, so the scope around it is the same. -/
theorem declareEnumerator {name name' : NameToken} (alike : name.Alike unfolding.same name') :
    Follows unfolding floor depth (old.declareEnumerator name) (new.declareEnumerator name') := by
  have next := follows.awaitEnumerator false
  obtain ⟨live, live', outer, outer', pairs, -, lowest⟩ := follows.outer
  cases pairs with
  | nil =>
      have isNamespace : old.frame.kind.isNamespace = true := lowest
      rw [declareEnumerator_of_namespace isNamespace,
        declareEnumerator_of_namespace (follows.frame.kind ▸ isNamespace)]
      exact next
  | cons around others =>
      rw [List.cons_append] at outer outer'
      have kinds : (new.frame.kind = .enumeration false) = (old.frame.kind = .enumeration false) := by
        rw [follows.frame.kind]
      rw [declareEnumerator_of_outer outer, declareEnumerator_of_outer outer', alike.text, around.kind]
      simp only [kinds]
      split_ifs
      · exact next.addDeclaration around.scope
      · exact next.addBinding _ _ _ around.scope
      · exact next

theorem declareVariable {name name' : NameToken} (alike : name.Alike unfolding.same name')
    {rest rest' : List Token} (heads : rest'.head?.map Token.lexeme = rest.head?.map Token.lexeme) :
    Follows unfolding floor depth (old.declareVariable name rest) (new.declareVariable name' rest') := by
  have typedefs : new.frame.typedefStart.isSome = old.frame.typedefStart.isSome := by
    have starts := follows.frame.typedefStart
    generalize old.frame.typedefStart = start at starts ⊢
    generalize new.frame.typedefStart = start' at starts ⊢
    cases starts <;> rfl
  simp only [Draft.declareVariable, typedefs, follows.frame.parens, Token.startsWith_of_head? heads]
  split_ifs
  · exact follows.setDeclaring _
  · exact (follows.declare alike .function).setDeclaring _
  · exact (follows.declare alike .variable).setDeclaring _

/-- The mention that a type definition turns into a declaration is the same. -/
theorem finishTypedef {tokens tokens' : List Token}
    (alike : List.Forall₂ (Token.Alike unfolding.same) tokens tokens') :
    Follows unfolding floor depth (old.finishTypedef tokens) (new.finishTypedef tokens') := by
  have names := typedefName?_alike alike
  rw [Draft.finishTypedef, Draft.finishTypedef]
  generalize typedefName? tokens = name? at names ⊢
  generalize typedefName? tokens' = name'? at names ⊢
  cases names with
  | none => exact follows
  | @some name name' alikeName =>
      have kept : List.Forall₂ (Mention.Follows unfolding)
          (old.mentions.filter (·.chain.start != name.start))
          (new.mentions.filter (·.chain.start != name'.start)) := by
        refine List.rel_filter (fun mention other here => ?_) follows.mentions
        have forward := unfolding.ascends here.start alikeName.start
        have backward := unfolding.ascends alikeName.start here.start
        simp only [bne_iff_ne, ne_eq]
        omega
      have fewer : Follows unfolding floor depth
          { old with mentions := old.mentions.filter (·.chain.start != name.start) }
          { new with mentions := new.mentions.filter (·.chain.start != name'.start) } :=
        { follows with mentions := kept }
      exact fewer.declare alikeName.name .typeAlias

theorem endStatement {before before' : List Token}
    (behind : Token.Behind unfolding.same floor.low floor.low' before before') :
    Follows unfolding floor depth (old.endStatement before) (new.endStatement before') := by
  have ended : Follows unfolding floor depth
      { old with frame := { old.frame with typedefStart := none, declaring := none } }
      { new with frame := { new.frame with typedefStart := none, declaring := none } } :=
    follows.setFrame { follows.frame with typedefStart := .none, declaring := rfl } rfl
  have parens := follows.frame.parens
  rw [Draft.endStatement, Draft.endStatement]
  by_cases outside : old.frame.parens = 0
  · rw [if_pos outside, if_pos (parens.trans outside)]
    have starts := follows.frame.typedefStart
    generalize old.frame.typedefStart = start at starts ⊢
    generalize new.frame.typedefStart = start' at starts ⊢
    cases starts with
    | none => exact ended.forget
    | some here =>
        obtain ⟨place, low, low'⟩ := here
        have tokens := behind.takeWhile unfolding.ascends place low low'
        exact (ended.finishTypedef tokens).forget
  · rw [if_neg outside, if_neg (parens ▸ outside)]
    exact follows

/-! Tests for what a name is. -/

section Name

variable {count : Nat} {before before' rest rest' : List Token}
  (behind : Token.Behind unfolding.same floor.low floor.low' before before')
  (ahead : Token.Ahead unfolding.same count rest rest')

include behind ahead

theorem isLabel : new.isLabel before' rest' = old.isLabel before rest := by
  simp only [Draft.isLabel, Token.startsWith_of_head? ahead.head?_lexeme, follows.frame.kind]
  congr 1
  rcases Token.cases_of_head? behind.head?_lexeme with
    ⟨rfl, rfl⟩ | ⟨previous, _, previous', _, rfl, rfl, lexeme⟩
  · rfl
  · simp only [Token.isPunctuator_of_lexeme lexeme]

theorem isDeclarator : new.isDeclarator before' rest' = old.isDeclarator before rest := by
  rw [Draft.isDeclarator.eq_def, Draft.isDeclarator.eq_def]
  rcases Token.cases_of_head? ahead.head?_lexeme with ⟨rfl, rfl⟩ | ⟨next, _, next', _, rfl, rfl, lexeme⟩
  · rfl
  · simp only [Token.kind_of_lexeme lexeme, Token.text_of_lexeme lexeme, behind.startsWith_dropWhile,
      behind.endsType, follows.frame.declaring, follows.frame.parens]

theorem readName {chain chain' : NameChain} (alike : chain.Alike unfolding.same chain') :
    Follows unfolding floor depth (old.readName before chain rest) (new.readName before' chain' rest') := by
  have expects : new.expectsEnumerator = old.expectsEnumerator := by
    rw [expectsEnumerator, expectsEnumerator, follows.frame.awaitsEnumerator, follows.frame.parens]
  have constancy : before'.head?.any Token.isConstancy = before.head?.any Token.isConstancy :=
    Token.any_of_head? behind.head?_lexeme fun _ _ => Token.isConstancy_of_lexeme
  simp only [Draft.readName, alike.isSingle, expects, follows.isLabel behind ahead,
    follows.isDeclarator behind ahead, constancy]
  split_ifs
  · exact follows.declareEnumerator alike.last
  · exact follows
  · exact follows.declareVariable alike.last ahead.head?_lexeme
  all_goals exact follows.mention alike _

end Name

end Draft.Follows

end Requalify
