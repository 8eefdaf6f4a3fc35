import Requalify.Proofs.Outline.Definitions

/-!
The paths of scopes. Only the definition of a named namespace makes the path of a scope differ from that of
the scope around it, so a scope has the path of the nearest namespace.
-/

namespace Requalify

namespace Draft

/-- A scope that no name opens has the path of the scope around it. -/
def Inherits (draft : Draft) : Prop :=
  ∀ id < draft.scopes.size, ∀ parent < id, (draft.finish.scope id).parent = some parent →
    (∀ isInline, (draft.finish.scope id).kind ≠ .named isInline) →
      (draft.finish.scope id).path = (draft.finish.scope parent).path

theorem start_inherits (size : Nat) : (Draft.start size).Inherits := by
  intro id bound parent smaller
  obtain rfl : id = 0 := by simpa [start] using bound
  exact absurd smaller (Nat.not_lt_zero parent)

theorem pathOf_of_unnamed (draft : Draft) (brace : Token)
    (unnamed : ∀ isInline, (draft.newScope brace).kind ≠ .named isInline) :
    (draft.newScope brace).path = draft.frame.path := by
  cases opening : draft.opening with
  | none => simp [newScope, pathOf, opening]
  | some opens =>
      cases opens with
      | named names => simp [newScope, opening, Opening.kind] at unnamed
      | _ => simp [newScope, pathOf, opening]

namespace Inherits

variable {draft : Draft} (inherits : draft.Inherits)

include inherits

theorem stays {next : Draft} {taken : List Token} (stays : draft.Stays next taken) : next.Inherits := by
  have same := stays.skeleton
  simp only [skeleton, Prod.mk.injEq] at same
  have scopes := same.2.1
  intro id bound parent
  rw [scope_congr scopes, scope_congr scopes]
  exact inherits id (scopes ▸ bound) parent

theorem openScope {known : List (List String)} (named : draft.Named known) (brace : Token)
    (afterName : Bool) : (draft.openScope brace afterName).Inherits := by
  obtain ⟨frameBound, framePath⟩ := named.frames draft.frame List.mem_cons_self
  have same := draft.openScope_skeleton brace afterName
  simp only [skeleton, Prod.mk.injEq] at same
  have scopes := same.2.1
  intro id bound parent smaller isParent unnamed
  rw [scopes, Array.size_push] at bound
  have older : parent ≠ draft.scopes.size := by omega
  rw [scope_push scopes] at isParent unnamed
  rw [scope_push scopes, scope_push scopes, if_neg older]
  by_cases isNew : id = draft.scopes.size
  · rw [if_pos isNew] at isParent unnamed ⊢
    obtain rfl : draft.frame.scope = parent := Option.some.inj isParent
    rw [draft.pathOf_of_unnamed brace unnamed, framePath]
  · rw [if_neg isNew] at isParent unnamed ⊢
    exact inherits id (by omega) parent smaller isParent unnamed

theorem closeScope {known : List (List String)} (named : draft.Named known) (brace : Token) :
    (draft.closeScope brace).Inherits := by
  cases outer : draft.outer with
  | nil =>
      rw [closeScope_of_nil outer]
      exact inherits
  | cons around others =>
      have bound := (named.frames draft.frame List.mem_cons_self).1
      rw [closeScope_of_outer outer]
      generalize nextEq : ({ draft with
        scopes := draft.endScope brace, frame := around, outer := others, opening := none } : Draft) = next
      have scopes : next.scopes = draft.endScope brace := by rw [← nextEq]
      have size : next.scopes.size = draft.scopes.size := by rw [scopes, endScope, Array.size_modify]
      have shape (id : Nat) : (next.finish.scope id).path = (draft.finish.scope id).path ∧
          (next.finish.scope id).kind = (draft.finish.scope id).kind ∧
          (next.finish.scope id).parent = (draft.finish.scope id).parent := by
        rw [scope_endScope bound scopes]
        split <;> exact ⟨rfl, rfl, rfl⟩
      intro id inRange parent
      rw [(shape id).1, (shape id).2.1, (shape id).2.2, (shape parent).1]
      exact inherits id (size ▸ inRange) parent

theorem step {known : List (List String)} (named : draft.Named known) (before : List Token)
    (token : Token) (rest : List Token) : (draft.step before token rest).1.Inherits := by
  by_cases opens : token.opensBrace = true
  · rw [draft.step_of_opensBrace before rest opens]
    exact inherits.openScope named token _
  by_cases closes : token.closesBrace = true
  · rw [draft.step_of_closesBrace before rest closes]
    exact inherits.closeScope named token
  · have other : token.isBrace = false := by simp [Token.isBrace, opens, closes]
    exact inherits.stays (draft.step_stays before rest other)

omit inherits in
theorem readFrom {draft : Draft} {known : List (List String)} (named : draft.Named known)
    (inherits : draft.Inherits) (before tokens : List Token) :
    (draft.readFrom before tokens).Inherits := by
  fun_induction Draft.spellings draft known before tokens with
  | case1 => simpa [Draft.readFrom] using inherits
  | case2 draft known before token rest names next more stepEq ih =>
      have spelled := named.step before token rest
      have after := inherits.step named before token rest
      rw [stepEq] at spelled after
      rw [Draft.readFrom, stepEq]
      exact ih spelled after

end Inherits

end Draft

namespace Outline

theorem scope_of_size_le {outline : Outline} {id : Nat} (beyond : outline.scopes.size ≤ id) :
    outline.scope id = default := by
  simp [scope, beyond]

/-- Each scope opens behind the scope around it. -/
def ParentsFirst (outline : Outline) : Prop :=
  ∀ id parent, (outline.scope id).parent = some parent → parent < id

theorem ofText_parentsFirst (text : String) : (ofText text).ParentsFirst := by
  intro id parent isParent
  have laminar := ofText_laminar text
  by_cases bound : id < (ofText text).scopes.size
  · by_cases isFile : id = 0
    · rw [isFile, laminar.file] at isParent
      simp at isParent
    · obtain ⟨other, smaller, isOther, -⟩ := laminar.inside id bound (Nat.pos_of_ne_zero isFile)
      obtain rfl : other = parent := Option.some.inj (isOther.symm.trans isParent)
      exact smaller
  · rw [scope_of_size_le (Nat.le_of_not_lt bound)] at isParent
    cases isParent

/-- The scope around a scope has the same path, unless a name opens the inner one. -/
theorem path_of_parent {text : String} {id parent : Nat}
    (isParent : ((ofText text).scope id).parent = some parent)
    (unnamed : ∀ isInline, ((ofText text).scope id).kind ≠ .named isInline) :
    ((ofText text).scope id).path = ((ofText text).scope parent).path := by
  have inherits := (Draft.start_inherits _).readFrom
    (Draft.start_named (Text.byteLength text.toList)) [] (tokenize text)
  refine inherits id ?_ parent (ofText_parentsFirst text id parent isParent) isParent unnamed
  refine Nat.lt_of_not_le fun beyond => ?_
  rw [scope_of_size_le beyond] at isParent
  cases isParent

theorem isNamespace_of_root {text : String} {id : Nat} (root : ((ofText text).scope id).parent = none) :
    ((ofText text).scope id).kind.isNamespace = true := by
  have laminar := ofText_laminar text
  by_cases bound : id < (ofText text).scopes.size
  · by_cases isFile : id = 0
    · rw [isFile, laminar.file]
      rfl
    · obtain ⟨parent, -, isParent, -⟩ := laminar.inside id bound (Nat.pos_of_ne_zero isFile)
      simp [isParent] at root
  · rw [scope_of_size_le (Nat.le_of_not_lt bound)]
    rfl

/-- The nearest namespace is found among the scopes around a scope, and it has the path of the scope. -/
theorem namespaceOf_spec (text : String) (id : Nat) :
    ((ofText text).ancestors id).find? (fun id => ((ofText text).scope id).kind.isNamespace) =
        some ((ofText text).namespaceOf id) ∧
      ((ofText text).scope ((ofText text).namespaceOf id)).path = ((ofText text).scope id).path := by
  induction id using Nat.strongRecOn with
  | ind id ih =>
      by_cases isNamespace : ((ofText text).scope id).kind.isNamespace = true
      · obtain ⟨outer, parts⟩ := List.head?_eq_some_iff.mp (ancestors_head (ofText text) id)
        simp [namespaceOf, parts, isNamespace]
      · cases isParent : ((ofText text).scope id).parent with
        | none => exact absurd (isNamespace_of_root isParent) isNamespace
        | some parent =>
            have smaller := ofText_parentsFirst text id parent isParent
            have unnamed (isInline : Bool) : ((ofText text).scope id).kind ≠ .named isInline := by
              intro isNamed
              simp [isNamed, ScopeKind.isNamespace] at isNamespace
            rw [namespaceOf, ancestors_of_parent isParent smaller, List.find?_cons,
              path_of_parent isParent unnamed]
            simp only [isNamespace]
            exact ih parent smaller

end Outline

end Requalify
