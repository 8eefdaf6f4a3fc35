import Requalify.Proofs.Outline.Cursor.Step
import Requalify.Proofs.Outline.Nesting

/-!
The outline of a text is read by index without a fault.
-/

namespace Requalify

namespace Cursor

variable {tokens : List Token}

theorem Follows.drop {cursor next : Cursor} {result : Draft × Nat}
    (follows : Follows tokens cursor next result) :
    tokens.drop next.index = (tokens.drop (cursor.index + 1)).drop result.2 := by
  have whole : tokens.take next.index ++ tokens.drop next.index =
      tokens.take (cursor.index + 1 + result.2) ++ tokens.drop (cursor.index + 1 + result.2) := by
    rw [List.take_append_drop, List.take_append_drop]
  rw [follows.passes] at whole
  rw [List.drop_drop]
  exact List.append_cancel_left whole

theorem Follows.behind {cursor next : Cursor} {result : Draft × Nat}
    (follows : Follows tokens cursor next result) {token : Token} (here : tokens[cursor.index]? = some token) :
    behind tokens next.index =
      ((tokens.drop (cursor.index + 1)).take result.2).reverse ++ token :: behind tokens cursor.index := by
  rw [← behind_succ here, Cursor.behind, Cursor.behind, follows.passes, List.take_add, List.reverse_append]

/-- What is read behind a step is what is read from the step on. -/
theorem Follows.readFrom {cursor next : Cursor} {draft : Draft} {token : Token}
    (here : tokens[cursor.index]? = some token)
    (follows : Follows tokens cursor next
      (draft.step (Cursor.behind tokens cursor.index) token (tokens.drop (cursor.index + 1)))) :
    (draft.step (Cursor.behind tokens cursor.index) token (tokens.drop (cursor.index + 1))).1.readFrom
        (Cursor.behind tokens next.index) (tokens.drop next.index) =
      draft.readFrom (Cursor.behind tokens cursor.index) (tokens.drop cursor.index) := by
  rw [drop_of_some here, Draft.readFrom, follows.drop, follows.behind here]

theorem Sees.dispatch (ordered : (tokens.map Token.start).Pairwise (· < ·)) {cursor : Cursor} {draft : Draft}
    (sees : Sees tokens cursor draft) {token : Token} (here : tokens[cursor.index]? = some token) :
    ∃ next, dispatch tokens cursor = .ok next ∧ Follows tokens cursor next
      (draft.step (behind tokens cursor.index) token (tokens.drop (cursor.index + 1))) := by
  obtain ⟨inner, now, rfl⟩ := sees.found
  exact dispatch_follows here now sees.begun ordered

theorem run_follows (ordered : (tokens.map Token.start).Pairwise (· < ·)) {rounds : Nat} {cursor : Cursor}
    {draft : Draft} (sees : Sees tokens cursor draft) (enough : tokens.length - cursor.index < rounds) :
    ∃ last, run tokens rounds cursor = .ok last ∧
      last.Sees tokens (draft.readFrom (behind tokens cursor.index) (tokens.drop cursor.index)) := by
  -- Each round leads the cursor on, so there are never fewer rounds than tokens left.
  induction rounds generalizing cursor draft with
  | zero => omega
  | succ rounds ih =>
      rw [run]
      by_cases inRange : cursor.index < tokens.length
      · have here : tokens[cursor.index]? = some tokens[cursor.index] := List.getElem?_eq_getElem inRange
        obtain ⟨next, dispatched, follows⟩ := sees.dispatch ordered here
        have advances := follows.advances
        obtain ⟨last, ran, known⟩ := ih follows.sees (by omega)
        rw [follows.readFrom here] at known
        rw [if_pos inRange, dispatched, Checked.ok_bind]
        exact ⟨last, ran, known⟩
      · rw [if_neg inRange, List.drop_of_length_le (by omega), Draft.readFrom]
        exact ⟨cursor, rfl, sees⟩

theorem finish_of_sees {cursor : Cursor} {draft : Draft} (sees : Sees tokens cursor draft) :
    finish cursor = .ok draft.finish := by
  obtain ⟨inner, now, rfl⟩ := sees.found
  rw [finish, now, Checked.ok_bind, frames_of_current now, List.length_cons, less, Checked.ok_bind,
    Draft.finish_relocate]
  rfl

theorem start_sees (size : Nat) : (start size).Sees tokens (Draft.start size) where
  found := ⟨Draft.start size, rfl, rfl⟩
  begun frame member keyword isStart := by
    rw [start, List.mem_singleton] at member
    rw [member] at isStart
    cases isStart

/-- The cursors that are reached in a text by one dispatch after another. -/
inductive Reached (text : String) : Cursor → Prop where
  | start : Reached text (start (Text.byteLength text.toList))
  | dispatch {cursor next : Cursor} (reached : Reached text cursor)
      (inRange : cursor.index < (tokenize text).length)
      (dispatched : dispatch (tokenize text) cursor = .ok next) : Reached text next

theorem Reached.sees {text : String} {cursor : Cursor} (reached : Reached text cursor) :
    ∃ draft, cursor.Sees (tokenize text) draft := by
  induction reached with
  | start => exact ⟨_, start_sees _⟩
  | dispatch reached inRange dispatched ih =>
      obtain ⟨draft, sees⟩ := ih
      obtain ⟨next, found, follows⟩ := sees.dispatch (tokenize_ascends text) (List.getElem?_eq_getElem inRange)
      rw [dispatched] at found
      obtain rfl := Except.ok.inj found
      exact ⟨_, follows.sees⟩

/-- Wherever the cursor comes in a text, a scope is open and the next dispatch leads on without a fault: it needs
no token that is not there, no search goes on without end, and no count falls below zero. So the text is read to
its end, and what is found is its outline. -/
theorem outline_without_fault (text : String) :
    (∀ cursor, Reached text cursor → cursor.frames ≠ [] ∧ (cursor.index < (tokenize text).length →
      ∃ next, dispatch (tokenize text) cursor = .ok next ∧ cursor.index < next.index)) ∧
    Cursor.outline text = .ok (Outline.ofText text) := by
  have ordered := tokenize_ascends text
  refine ⟨fun cursor reached => ?_, ?_⟩
  · obtain ⟨draft, sees⟩ := reached.sees
    constructor
    · obtain ⟨inner, now, -⟩ := sees.found
      rw [frames_of_current now]
      exact List.cons_ne_nil _ _
    · intro inRange
      obtain ⟨next, dispatched, follows⟩ := sees.dispatch ordered (List.getElem?_eq_getElem inRange)
      exact ⟨next, dispatched, follows.advances⟩
  · have enough : (tokenize text).length - 0 < (tokenize text).length + 1 := by omega
    obtain ⟨last, ran, sees⟩ := run_follows ordered (start_sees (Text.byteLength text.toList)) enough
    rw [outline, ran, Checked.ok_bind, finish_of_sees sees]
    rfl

end Cursor

end Requalify
