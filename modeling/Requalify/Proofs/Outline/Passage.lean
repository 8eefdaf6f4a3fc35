import Requalify.Proofs.Outline.Stays

/-!
From one place of a text to another. Reading goes from stop to stop, so what is shown for each step at a
token between two places holds at the second if it holds at the first.
-/

namespace Requalify

/-- Reading goes on from a draft to another; `behind` and `left` stand around the second. -/
inductive Draft.Goes : Draft → List Token → List Token → Draft → List Token → List Token → Prop
  | stay (draft : Draft) (before ahead : List Token) : Goes draft before ahead draft before ahead
  | step {draft next : Draft} {before rest behind left : List Token} {token : Token}
      (others : Goes (draft.step before token rest).1
        ((rest.take (Token.stride before token rest)).reverse ++ token :: before)
        (rest.drop (Token.stride before token rest)) next behind left) :
      Goes draft before (token :: rest) next behind left

namespace Draft.Goes

variable {draft next last : Draft} {before ahead behind left behind' left' : List Token}

theorem trans (first : Goes draft before ahead next behind left)
    (second : Goes next behind left last behind' left') : Goes draft before ahead last behind' left' := by
  induction first with
  | stay => exact second
  | step _ ih => exact .step (ih second)

theorem readFrom (goes : Goes draft before ahead next behind left) :
    draft.readFrom before ahead = next.readFrom behind left := by
  induction goes with
  | stay => rfl
  | step _ ih => rw [readFrom_cons, ih]

theorem parts (goes : Goes draft before ahead next behind left) :
    before.reverse ++ ahead = behind.reverse ++ left ∧ left <:+ ahead := by
  induction goes with
  | stay => exact ⟨rfl, List.suffix_refl _⟩
  | step _ ih =>
      obtain ⟨same, suffix⟩ := ih
      constructor
      · rw [← same]
        simp
      · exact suffix.trans ((List.drop_suffix _ _).trans (List.suffix_cons _ _))

theorem of_stop (draft : Draft) {stop : Stop} (member : stop ∈ Token.stops before ahead) :
    ∃ next, Goes draft before ahead next stop.before (stop.token :: stop.rest) := by
  fun_induction Token.stops before ahead generalizing draft with
  | case1 => simp at member
  | case2 before token rest more ih =>
      rcases List.mem_cons.mp member with rfl | later
      · exact ⟨draft, .stay _ _ _⟩
      · obtain ⟨next, goes⟩ := ih (draft.step before token rest).1 later
        exact ⟨next, .step goes⟩

/-- A step that begins in front of a place ends there at the latest. -/
theorem within {middle rest : List Token} {token : Token} {more : Nat}
    (whole : middle ++ left = token :: rest) (later : left <:+ rest.drop more) :
    ∃ back, middle = token :: back ∧ rest = back ++ left ∧ rest.take more = back.take more ∧
      rest.drop more = back.drop more ++ left := by
  have shorter := later.length_le
  cases middle with
  | nil =>
      rw [List.nil_append] at whole
      simp [whole] at shorter
      omega
  | cons first back =>
      rw [List.cons_append] at whole
      obtain ⟨rfl, rfl⟩ := List.cons.inj whole
      have bound : more ≤ back.length ∨ left = [] := by
        simp at shorter
        cases left with
        | nil => exact .inr rfl
        | cons next left =>
            simp at shorter
            omega
      refine ⟨back, rfl, rfl, ?_, ?_⟩
      · rcases bound with short | rfl
        · exact List.take_append_of_le_length short
        · simp
      · rcases bound with short | rfl
        · exact List.drop_append_of_le_length short
        · simp

/-- The steps between two places begin at tokens between them. -/
theorem stops {middle : List Token} (goes : Goes draft before (middle ++ left) next behind left) :
    ∃ passed, Token.stops before (middle ++ left) = passed ++ Token.stops behind left ∧
      (passed.map (·.token)).Sublist middle := by
  generalize aheadEq : middle ++ left = ahead at goes
  induction goes generalizing middle with
  | stay =>
      obtain rfl : middle = [] := by simpa using aheadEq
      exact ⟨[], rfl, List.Sublist.refl _⟩
  | @step draft next before rest behind left token others ih =>
      obtain ⟨back, rfl, -, -, shorter⟩ := within aheadEq others.parts.2
      obtain ⟨passed, stopsEq, sublist⟩ := ih shorter.symm
      refine ⟨⟨before, token, rest⟩ :: passed, ?_, ?_⟩
      · rw [Token.stops, stopsEq, List.cons_append]
      · exact (sublist.trans (List.drop_sublist _ back)).cons_cons token

/-- What each step between two places keeps holds at the second as well. -/
theorem across {motive : Draft → List Token → Prop} {middle : List Token}
    (goes : Goes draft before (middle ++ left) next behind left)
    (steps : ∀ draft front token back, middle = front ++ token :: back → motive draft front →
      let more := Token.stride (front.reverse ++ before) token (back ++ left)
      motive (draft.step (front.reverse ++ before) token (back ++ left)).1
        (front ++ token :: back.take more))
    (here : motive draft []) : motive next middle := by
  generalize aheadEq : middle ++ left = ahead at goes
  induction goes generalizing middle motive with
  | stay =>
      obtain rfl : middle = [] := by simpa using aheadEq
      exact here
  | @step draft next before rest behind left token others ih =>
      obtain ⟨back, rfl, rfl, taken, shorter⟩ := within aheadEq others.parts.2
      have first := steps draft [] token back rfl here
      simp only [List.reverse_nil, List.nil_append] at first
      generalize Token.stride before token (back ++ left) = more at taken shorter first ih
      have split : token :: back = token :: back.take more ++ back.drop more := by simp
      rw [split]
      refine ih (motive := fun draft passed => motive draft (token :: back.take more ++ passed)) ?_ ?_
        shorter.symm
      · intro draft front other behind parts held
        have later := steps draft (token :: back.take more ++ front) other behind
          (by rw [split, parts]; simp) held
        rw [taken]
        simpa using later
      · simpa using first

end Draft.Goes

/-- Some steps of reading. -/
def Draft.reach : Nat → Draft → List Token → List Token → Draft × List Token × List Token
  | steps + 1, draft, before, token :: rest =>
      reach steps (draft.step before token rest).1
        ((rest.take (Token.stride before token rest)).reverse ++ token :: before)
        (rest.drop (Token.stride before token rest))
  | _, draft, before, ahead => (draft, before, ahead)

theorem Draft.goes_reach (steps : Nat) (draft : Draft) (before ahead : List Token) :
    Goes draft before ahead (draft.reach steps before ahead).1 (draft.reach steps before ahead).2.1
      (draft.reach steps before ahead).2.2 := by
  fun_induction Draft.reach with
  | case1 draft before token rest steps ih => exact .step ih
  | case2 => exact .stay _ _ _

end Requalify
