import Requalify.Proofs.Outline.Bodies
import Requalify.Proofs.Outline.Bracing

/-!
Reading two texts up to the next place where they differ. Each step in the first text has its counterpart in
the second, so the drafts say the same there.
-/

namespace Requalify

/-- What has been read stands in front. -/
theorem Token.Ahead.behind {same : Nat → Nat → Prop} {low low' count : Nat}
    {left right before before' : List Token} (ahead : Ahead same count left right)
    (behind : Behind same low low' before before') {more : Nat} (short : more ≤ count) :
    Behind same low low' ((left.take more).reverse ++ before) ((right.take more).reverse ++ before') := by
  induction more generalizing count left right before before' with
  | zero => simpa using behind
  | succ more ih =>
      rcases ahead.cases_head with ⟨-, -, rfl⟩ | ⟨-, -, -, -, -, -, -, -, rfl⟩ |
        ⟨token, rest, token', rest', count, rfl, rfl, alike, others, rfl⟩
      · omega
      · omega
      · simpa using ih others (.cons alike behind) (by omega)

namespace Draft

/-- The drafts say the same at places that look the same. -/
structure Beside (unfolding : Unfolding) (floor : Floor) (old : Draft) (before : List Token) (new : Draft)
    (before' : List Token) : Prop where
  follows : ∃ depth, old.Follows unfolding floor depth new
  behind : Token.Behind unfolding.same floor.low floor.low' before before'

/-- The brace at a place closes no frame below the lowest that is the same. -/
def Closes (floor : Floor) (draft : Draft) (token : Token) : Prop :=
  token.closesBrace = true → floor.base = [] ∧ floor.base' = [] ∨ floor.base.length < draft.outer.length

section Step

variable {unfolding : Unfolding} {floor : Floor} {old new : Draft} {before before' rest rest' : List Token}
  {token token' : Token} {count : Nat}

theorem Beside.step (beside : old.Beside unfolding floor before new before')
    (alike : token.Alike unfolding.same token') (ahead : Token.Ahead unfolding.same count rest rest')
    (low : floor.low ≤ token.start) (low' : floor.low' ≤ token'.start)
    (short : Token.stride before token rest ≤ count)
    (number : token.opensBrace = true →
      unfolding.move old.scopes.size = old.scopes.size + floor.added)
    (closes : Closes floor old token) :
    Token.stride before' token' rest' = Token.stride before token rest ∧
      (old.step before token rest).1.Beside unfolding floor
        ((rest.take (Token.stride before token rest)).reverse ++ token :: before)
        (new.step before' token' rest').1
        ((rest'.take (Token.stride before token rest)).reverse ++ token' :: before') := by
  obtain ⟨⟨depth, follows⟩, behind⟩ := beside
  have passed := ahead.behind (.cons alike behind) short
  have sameBrace (text : String) := Token.isPunctuator_of_lexeme alike.lexeme text
  by_cases isOpen : token.opensBrace = true
  · have isOpen' : token'.opensBrace = true := (sameBrace _).trans isOpen
    have strideEq := old.step_stride before token rest
    have strideEq' := new.step_stride before' token' rest'
    rw [step_of_opensBrace _ _ _ isOpen] at strideEq ⊢
    rw [step_of_opensBrace _ _ _ isOpen'] at strideEq' ⊢
    rw [Token.startsWithIdentifier_of_head? behind.head?_lexeme]
    exact ⟨strideEq'.symm.trans strideEq, ⟨_, follows.openScope _ (number isOpen)⟩, passed⟩
  by_cases isClose : token.closesBrace = true
  · have isClose' : token'.closesBrace = true := (sameBrace _).trans isClose
    have strideEq := old.step_stride before token rest
    have strideEq' := new.step_stride before' token' rest'
    rw [step_of_closesBrace _ _ _ isClose] at strideEq ⊢
    rw [step_of_closesBrace _ _ _ isClose'] at strideEq' ⊢
    exact ⟨strideEq'.symm.trans strideEq, ⟨_, follows.closeScope (closes isClose)⟩, passed⟩
  · have other : token.isBrace = false := by simp [Token.isBrace, isOpen, isClose]
    obtain ⟨strideEq, next⟩ := step_agrees follows behind alike ahead low low' other
      (old.step_stride before token rest ▸ short)
    rw [step_stride, step_stride] at strideEq
    exact ⟨strideEq, ⟨depth, next⟩, passed⟩

end Step

/-- The scopes of a file only become more. -/
theorem Goes.size_le {draft next : Draft} {before ahead behind left : List Token}
    (goes : Goes draft before ahead next behind left) : draft.scopes.size ≤ next.scopes.size := by
  have sizes := goes.scopes_size
  obtain ⟨passed, stopsEq⟩ : ∃ passed, Token.stops before ahead = passed ++ Token.stops behind left := by
    have suffix := goes.parts.2
    obtain ⟨middle, rfl⟩ := suffix
    obtain ⟨passed, stopsEq, -⟩ := goes.stops
    exact ⟨passed, stopsEq⟩
  rw [stopsEq, List.map_append, List.countP_append] at sizes
  omega

theorem Goes.of_stride {draft next : Draft} {before rest behind left : List Token} {token : Token}
    {more : Nat} (strideEq : Token.stride before token rest = more)
    (others : Goes (draft.step before token rest).1 ((rest.take more).reverse ++ token :: before)
      (rest.drop more) next behind left) : Goes draft before (token :: rest) next behind left := by
  subst strideEq
  exact .step others

/-- Two texts are read alike up to the next place where they differ. -/
theorem Goes.beside {unfolding : Unfolding} {floor : Floor} {old next : Draft}
    {before middle left behind : List Token} (goes : Goes old before (middle ++ left) next behind left)
    (goesOn : left ≠ []) {new : Draft} {before' middle' left' : List Token}
    (start : old.Beside unfolding floor before new before')
    (ahead : Token.Ahead unfolding.same middle.length (middle ++ left) (middle' ++ left'))
    (long : middle'.length = middle.length)
    (low : ∀ token ∈ middle, floor.low ≤ token.start) (low' : ∀ token ∈ middle', floor.low' ≤ token.start)
    (numbers : ∀ size, old.scopes.size ≤ size → size < next.scopes.size →
      unfolding.move size = size + floor.added)
    (closes : ∀ mid front token rest, Goes old before (middle ++ left) mid front (token :: rest) →
      left <:+ rest → Closes floor mid token) :
    ∃ next', Goes new before' (middle' ++ left') next' (middle'.reverse ++ before') left' ∧
      next.Beside unfolding floor behind next' (middle'.reverse ++ before') := by
  generalize tokensEq : middle ++ left = tokens at goes ahead closes
  induction goes generalizing middle new before' middle' with
  | stay =>
      obtain rfl : middle = [] := by simpa using tokensEq
      obtain rfl : middle' = [] := List.length_eq_zero_iff.mp long
      exact ⟨new, .stay _ _ _, start⟩
  | @step draft next before rest behind left token others ih =>
      have further := others.parts.2
      obtain ⟨back, rfl, rfl, -, dropped⟩ := within tokensEq further
      have short : Token.stride before token (back ++ left) ≤ back.length := by
        have lengths := further.length_le
        have positive := List.length_pos_iff.mpr goesOn
        rw [List.length_drop, List.length_append] at lengths
        omega
      obtain ⟨token', back', rfl⟩ : ∃ token' back', middle' = token' :: back' := by
        cases middle' with
        | nil => simp at long
        | cons token' back' => exact ⟨token', back', rfl⟩
      have long : back'.length = back.length := by simpa using long
      obtain ⟨alike, more⟩ : token.Alike unfolding.same token' ∧
          Token.Ahead unfolding.same back.length (back ++ left) (back' ++ left') := ahead.of_cons_cons
      obtain ⟨lowToken, lowBack⟩ := List.forall_mem_cons.mp low
      obtain ⟨lowToken', lowBack'⟩ := List.forall_mem_cons.mp low'
      have sizes := others.size_le
      have number (opens : token.opensBrace = true) :
          unfolding.move draft.scopes.size = draft.scopes.size + floor.added := by
        refine numbers _ (Nat.le_refl _) (Nat.lt_of_succ_le (Nat.le_trans ?_ sizes))
        have scopes := congrArg (·.2.1) (draft.openScope_skeleton token (Token.startsWithIdentifier before))
        simp only [skeleton] at scopes
        rw [step_of_opensBrace _ _ _ opens, scopes, Array.size_push]
      have larger : draft.scopes.size ≤ (draft.step before token (back ++ left)).1.scopes.size :=
        (Goes.step (.stay _ _ _)).size_le
      obtain ⟨strideEq, beside⟩ := start.step alike more lowToken lowToken' short number
        (closes _ _ _ _ (.stay _ _ _) (List.suffix_append _ _))
      have closesLater := fun mid front next rest goes => closes mid front next rest (.step goes)
      have reached := more.drop short
      generalize Token.stride before token (back ++ left) = stride at *
      have short' : stride ≤ back'.length := long ▸ short
      rw [List.drop_append_of_le_length short, List.drop_append_of_le_length short',
        ← List.length_drop] at reached
      rw [List.take_append_of_le_length short'] at beside
      obtain ⟨next', goes', beside'⟩ := ih goesOn beside (by simp [long])
        (fun token member => lowBack token (List.mem_of_mem_drop member))
        (fun token member => lowBack' token (List.mem_of_mem_drop member))
        (fun size atLeast => numbers size (Nat.le_trans larger atLeast))
        dropped.symm (dropped ▸ reached) closesLater
      have whole : (back'.drop stride).reverse ++ ((back'.take stride).reverse ++ token' :: before') =
          (token' :: back').reverse ++ before' := by
        rw [← List.append_assoc, ← List.reverse_append, List.take_append_drop]
        simp
      rw [whole] at goes' beside'
      refine ⟨next', ?_, beside'⟩
      rw [List.cons_append]
      refine .of_stride strideEq ?_
      rwa [List.take_append_of_le_length short', List.drop_append_of_le_length short']

end Draft

end Requalify
