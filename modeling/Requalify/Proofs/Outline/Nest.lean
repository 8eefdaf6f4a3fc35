import Requalify.Proofs.Outline.Stays

/-!
The nest of scopes while a file is read. Of all steps only those at braces change it.
-/

namespace Requalify

/-- What braces change: the spans of the scopes, and which scopes are open, innermost first. -/
structure Nest where
  size : Nat
  spans : List Span
  opened : List Nat

namespace Nest

def step (nest : Nest) (token : Token) : Nest :=
  if token.opensBrace then
    { nest with
      spans := nest.spans ++ [Span.between token.start nest.size]
      opened := nest.spans.length :: nest.opened }
  else if token.closesBrace then
    match nest.opened with
    | inner :: around :: outer =>
        { nest with
          spans := nest.spans.modify inner fun span => Span.between span.start token.stop
          opened := around :: outer }
    | _ => nest
  else nest

theorem step_of_other {token : Token} (other : token.isBrace = false) (nest : Nest) :
    nest.step token = nest := by
  rw [Token.isBrace, Bool.or_eq_false_iff] at other
  simp [step, other]

end Nest

namespace Draft

def nest (draft : Draft) : Nest where
  size := draft.size
  spans := draft.scopes.toList.map (·.span)
  opened := draft.frame.scope :: draft.outer.map (·.scope)

theorem nest_of_skeleton {draft next : Draft} (same : next.skeleton = draft.skeleton) :
    next.nest = draft.nest := by
  simp only [skeleton, Prod.mk.injEq] at same
  obtain ⟨size, scopes, ⟨scope, -, -⟩, outer⟩ := same
  simp only [nest, size, scopes, scope, outer]

variable (draft : Draft)

theorem spans_length : draft.nest.spans.length = draft.scopes.size := by
  simp [nest]

theorem openScope_nest {brace : Token} (opens : brace.opensBrace = true) (afterName : Bool) :
    (draft.openScope brace afterName).nest = draft.nest.step brace := by
  have same := draft.openScope_skeleton brace afterName
  simp only [skeleton, Prod.mk.injEq] at same
  obtain ⟨size, scopes, ⟨scope, -, -⟩, outer⟩ := same
  simp [nest, Nest.step, opens, size, scopes, scope, outer, newScope]

theorem closeScope_nest {brace : Token} (closes : brace.closesBrace = true) :
    (draft.closeScope brace).nest = draft.nest.step brace := by
  have notOpen : brace.opensBrace = false :=
    Bool.eq_false_iff.mpr fun opens => by simp [Token.closesBrace_of_opensBrace opens] at closes
  rw [Nest.step, notOpen, if_neg (by decide), if_pos closes]
  unfold closeScope
  cases outer : draft.outer with
  | nil => simp [nest, outer]
  | cons around others => 
      have spans : (draft.scopes.toList.modify draft.frame.scope fun scope =>
          { scope with span := Span.between scope.span.start brace.stop }).map (·.span) =
            (draft.scopes.toList.map (·.span)).modify draft.frame.scope fun span =>
              Span.between span.start brace.stop := by
        refine List.ext_getElem? fun index => ?_
        simp only [List.getElem?_map, List.getElem?_modify]
        cases draft.scopes.toList[index]? with
        | none => rfl
        | some scope => by_cases same : draft.frame.scope = index <;> simp [same]
      simp [nest, outer, spans]

/-- A step changes the nest only by the token at which it begins. -/
theorem step_nest (before : List Token) (token : Token) (rest : List Token) :
    (draft.step before token rest).1.nest = draft.nest.step token := by
  by_cases opens : token.opensBrace = true
  · rw [draft.step_of_opensBrace before rest opens]
    exact draft.openScope_nest opens _
  by_cases closes : token.closesBrace = true
  · rw [draft.step_of_closesBrace before rest closes]
    exact draft.closeScope_nest closes
  · have other : token.isBrace = false := by simp [Token.isBrace, opens, closes]
    rw [Nest.step_of_other other]
    exact nest_of_skeleton (draft.step_stays before rest other).skeleton

end Draft

end Requalify
