import Requalify.Proofs.Lookup.Kept
import Requalify.Proofs.Outline.Simulation

/-!
Braces in two texts that differ in some stretches only. A brace that opens a scope opens its counterpart as
well, and a brace that closes a scope above the lowest frame closes its counterpart.
-/

namespace Requalify

theorem Opening.kind_shape (opening : Opening) : opening.shape.kind = opening.kind := by
  cases opening <;> rfl

theorem Opening.kinds_of_shapes {left right : Option Opening}
    (same : right.map shape = left.map shape) : right.map kind = left.map kind := by
  have through (opening : Option Opening) : opening.map kind = (opening.map shape).map kind := by
    cases opening with
    | none => rfl
    | some opening => exact congrArg some opening.kind_shape.symm
  rw [through, through left, same]

theorem Scope.Follows.of_shape {unfolding : Unfolding} {id : Nat} {old old' new new' : Scope}
    (follows : old.Follows unfolding id new) (shape : old'.shape = old.shape)
    (shape' : new'.shape = new.shape) : old'.Follows unfolding id new' := by
  obtain ⟨kind, parent, path⟩ : old'.kind = old.kind ∧ old'.parent = old.parent ∧ old'.path = old.path := by
    simpa [Scope.shape] using shape
  obtain ⟨kind', parent', path'⟩ :
      new'.kind = new.kind ∧ new'.parent = new.parent ∧ new'.path = new.path := by
    simpa [Scope.shape] using shape'
  refine ⟨by rw [kind', kind, follows.kind], by rw [path', path, follows.path], fun other => ?_⟩
  rw [parent', parent, follows.parent other]

namespace Draft

theorem pathOf_of_shapes {left right : Draft} (path : right.frame.path = left.frame.path)
    {opening opening' : Option Opening} (same : opening'.map Opening.shape = opening.map Opening.shape) :
    right.pathOf opening' = left.pathOf opening := by
  rcases opening with - | opening <;> rcases opening' with - | opening'
  · exact path
  · simp at same
  · simp at same
  · have same : opening'.shape = opening.shape := by simpa using same
    cases opening <;> cases opening' <;> simp_all [Opening.shape, pathOf]

/-- A closing brace changes nothing of a scope but its end. -/
theorem shape_endScope {draft next : Draft} {brace : Token}
    (modified : next.scopes = draft.endScope brace) (id : Nat) :
    (next.finish.scope id).shape = (draft.finish.scope id).shape := by
  simp only [Outline.scope, finish, modified, endScope, Array.getD_eq_getD_getElem?,
    Array.getElem?_modify]
  split
  next =>
    cases draft.scopes[id]? with
    | none => rfl
    | some scope => rfl
  next => rfl

/-- What an opening brace makes of a draft. -/
theorem openScope_eq (draft : Draft) (brace : Token) (afterName : Bool) :
    ∃ namespaces keywords, draft.openScope brace afterName =
      { draft.bindParked draft.scopes.size (draft.newScope brace).kind afterName with
        namespaces := namespaces
        anonymousNamespaces := keywords
        scopes := draft.scopes.push (draft.newScope brace)
        frame := Frame.ofScope draft.scopes.size (draft.newScope brace).kind (draft.newScope brace).path
        outer := draft.frame :: draft.outer
        opening := none } := by
  refine ⟨(draft.defineNamespaces draft.opening).namespaces,
    (draft.defineNamespaces draft.opening).anonymousNamespaces, ?_⟩
  unfold openScope newScope defineNamespaces bindParked
  dsimp only
  cases draft.opening with
  | none => cases afterName <;> rfl
  | some opening => cases opening <;> rfl

namespace Follows

variable {unfolding : Unfolding} {floor : Floor} {depth : Nat} {old new : Draft}
  (follows : old.Follows unfolding floor depth new)

include follows

theorem bindParked {id id' : Nat} (number : id' = unfolding.move id) (kind : ScopeKind) (afterName : Bool) :
    Follows unfolding floor depth (old.bindParked id kind afterName) (new.bindParked id' kind afterName) := by
  subst number
  have bound : Follows unfolding floor depth
      { old with
        bindings := old.parked.map (fun waiting => ⟨waiting.1, id, waiting.2⟩) ++ old.bindings
        parked := [] }
      { new with
        bindings := new.parked.map (fun waiting => ⟨waiting.1, unfolding.move id, waiting.2⟩) ++ new.bindings
        parked := [] } := by
    refine { follows with bindings := ?_, parked := rfl }
    have names := congrArg (List.map fun name => (name, unfolding.move id)) follows.parked
    simp only [List.map_map, Function.comp_def] at names
    simp only [List.map_append, List.map_map, Function.comp_def, follows.bindings, names]
  unfold Draft.bindParked
  split
  next => exact follows
  next => exact bound
  next => exact bound
  next => exact follows.setParked rfl

theorem openScope {brace brace' : Token} (afterName : Bool)
    (number : unfolding.move old.scopes.size = old.scopes.size + floor.added) :
    Follows unfolding floor (depth + 1) (old.openScope brace afterName) (new.openScope brace' afterName) := by
  have numbers : new.scopes.size = unfolding.move old.scopes.size := by rw [number, follows.size]
  have kinds : (new.newScope brace').kind = (old.newScope brace).kind := by
    simp only [newScope, Opening.kinds_of_shapes follows.opening]
  have paths : (new.newScope brace').path = (old.newScope brace).path :=
    pathOf_of_shapes follows.frame.path follows.opening
  have bound : Follows unfolding floor depth
      (old.bindParked old.scopes.size (old.newScope brace).kind afterName)
      (new.bindParked new.scopes.size (new.newScope brace').kind afterName) := by
    rw [kinds]
    exact follows.bindParked numbers _ afterName
  obtain ⟨_, _, oldEq⟩ := old.openScope_eq brace afterName
  obtain ⟨_, _, newEq⟩ := new.openScope_eq brace' afterName
  have oldScopes : (old.openScope brace afterName).scopes = old.scopes.push (old.newScope brace) := by
    rw [oldEq]
  have newScopes : (new.openScope brace' afterName).scopes = new.scopes.push (new.newScope brace') := by
    rw [newEq]
  have count : (old.openScope brace afterName).scopes.size = old.scopes.size + 1 := by
    rw [oldScopes, Array.size_push]
  have opened : (old.newScope brace).Follows unfolding old.scopes.size (new.newScope brace') :=
    ⟨kinds, paths, fun _ => congrArg some follows.frame.scope⟩
  have scopes (id : Nat) (inRange : id < (old.openScope brace afterName).scopes.size) :
      ((old.openScope brace afterName).finish.scope id).Follows unfolding id
        ((new.openScope brace' afterName).finish.scope (unfolding.move id)) := by
    rw [count] at inRange
    rw [scope_push oldScopes, scope_push newScopes]
    by_cases isNew : id = old.scopes.size
    · rw [if_pos isNew, if_pos (isNew ▸ numbers.symm), isNew]
      exact opened
    · have isOld : unfolding.move id ≠ new.scopes.size := by
        rwa [numbers, Ne, unfolding.move_inj]
      rw [if_neg isNew, if_neg isOld]
      exact follows.scopes id (by omega)
  have sizes : (new.openScope brace' afterName).scopes.size =
      (old.openScope brace afterName).scopes.size + floor.added := by
    rw [count, newScopes, Array.size_push, follows.size]
    omega
  rw [oldEq, newEq] at scopes sizes ⊢
  obtain ⟨live, live', outer, outer', pairs, length, lowest⟩ := follows.outer
  refine { bound with
    size := sizes
    scopes := scopes
    opening := rfl
    frame := ?_
    outer := ⟨old.frame :: live, new.frame :: live', congrArg _ outer, congrArg _ outer',
      .cons follows.frame pairs, congrArg Nat.succ length, ?_⟩ }
  · rw [kinds, paths]
    exact ⟨numbers, rfl, rfl, rfl, .none, rfl, rfl⟩
  · rw [List.map_cons, List.getLastD_cons]
    exact lowest

theorem closeScope {brace brace' : Token}
    (stays : floor.base = [] ∧ floor.base' = [] ∨ floor.base.length < old.outer.length) :
    Follows unfolding floor (depth - 1) (old.closeScope brace) (new.closeScope brace') := by
  obtain ⟨live, live', outer, outer', pairs, length, lowest⟩ := follows.outer
  cases pairs with
  | nil =>
      have file : floor.base = [] ∧ floor.base' = [] := by
        refine stays.resolve_right fun deeper => ?_
        simp [outer] at deeper
      rw [closeScope_of_nil (by simpa [file] using outer), closeScope_of_nil (by simpa [file] using outer')]
      rw [List.length_nil] at length
      subst length
      exact follows.setOpening rfl
  | @cons around around' live live' here pairs =>
      rw [List.cons_append] at outer outer'
      rw [closeScope_of_outer outer, closeScope_of_outer outer']
      have scopes (id : Nat) (inRange : id < (old.endScope brace).size) :
          ((finish { old with scopes := old.endScope brace }).scope id).Follows unfolding id
            ((finish { new with scopes := new.endScope brace' }).scope (unfolding.move id)) := by
        refine (follows.scopes id (by simpa [endScope] using inRange)).of_shape ?_ ?_
        · exact @shape_endScope old { old with scopes := old.endScope brace } brace rfl id
        · exact @shape_endScope new { new with scopes := new.endScope brace' } brace' rfl _
      rw [List.map_cons, List.getLastD_cons] at lowest
      rw [List.length_cons] at length
      subst length
      exact { follows with
        size := by simpa [endScope] using follows.size
        scopes := scopes
        opening := rfl
        frame := here
        outer := ⟨live, live', rfl, rfl, pairs, rfl, lowest⟩ }

end Follows

end Draft

end Requalify
