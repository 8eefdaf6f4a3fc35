import Mathlib.Tactic.SplitIfs
import Requalify.Outline.Reading

/-!
Where reading stops. How many tokens a step takes depends on the tokens alone, so the tokens at which
steps begin are known before anything is read.
-/

namespace Requalify

/-- How many tokens the step at `token` takes beyond it. -/
def Token.stride (before : List Token) (token : Token) (rest : List Token) : Nat :=
  ((Draft.start 0).step before token rest).2

/-- A token at which a step begins, and what stands around it; `before` is nearest first. -/
structure Stop where
  before : List Token
  token : Token
  rest : List Token

def Token.stops (before : List Token) : List Token → List Stop
  | [] => []
  | token :: rest =>
      let more := stride before token rest
      ⟨before, token, rest⟩ :: stops ((rest.take more).reverse ++ token :: before) (rest.drop more)
termination_by tokens => tokens.length
decreasing_by simp only [List.length_drop, List.length_cons]; omega

theorem Token.stops_sublist (before tokens : List Token) :
    ((stops before tokens).map (·.token)).Sublist tokens := by
  fun_induction stops before tokens with
  | case1 before => exact List.Sublist.refl _
  | case2 before token rest more ih => exact (ih.trans (List.drop_sublist more rest)).cons_cons token

/-- What stands around a stop is the text. -/
theorem Token.parts_of_stop {before tokens : List Token} {stop : Stop}
    (member : stop ∈ stops before tokens) :
    before.reverse ++ tokens = stop.before.reverse ++ stop.token :: stop.rest ∧
      stop.token :: stop.rest <:+ tokens := by
  fun_induction stops before tokens with
  | case1 before => simp at member
  | case2 before token rest more ih =>
      rcases List.mem_cons.mp member with rfl | later
      · exact ⟨rfl, List.suffix_refl _⟩
      · obtain ⟨parts, suffix⟩ := ih later
        refine ⟨?_, suffix.trans ((List.drop_suffix more rest).trans (List.suffix_cons token rest))⟩
        rw [← parts]
        simp

namespace Draft

section Stride

variable (draft other : Draft) (before : List Token) (token : Token) (rest : List Token)

theorem stepName_stride : (draft.stepName before token rest).2 = (other.stepName before token rest).2 := by
  unfold stepName
  split
  next => rfl
  next =>
    split
    next => rfl
    next => rfl

theorem stepNamespace_stride :
    (draft.stepNamespace before token rest).2 = (other.stepNamespace before token rest).2 := by
  unfold stepNamespace
  dsimp only
  generalize definitionNames _ _ _ _ = found
  obtain ⟨names, count⟩ := found
  dsimp only
  generalize Token.attributesLength (_ + count) _ = stop
  rcases names with _ | ⟨name, _ | ⟨second, more⟩⟩
  · simp only [apply_ite Prod.snd]
  · cases NameChain.read? ((rest.drop stop).drop 1) with
    | none => simp only [apply_ite Prod.snd]
    | some target => simp only [apply_ite Prod.snd]
  · simp only [apply_ite Prod.snd]

theorem stepUsing_stride : (draft.stepUsing token rest).2 = (other.stepUsing token rest).2 := by
  unfold stepUsing
  cases rest with
  | nil => rfl
  | cons next after =>
      dsimp only
      split_ifs
      next => cases NameChain.read? after <;> rfl
      next => rfl
      next => rfl
      next =>
        cases NameChain.read? ((next :: after).drop 1) with
        | none => rfl
        | some target => simp only [apply_ite Prod.snd]
      next =>
        cases NameChain.read? ((next :: after).drop 0) with
        | none => rfl
        | some target => simp only [apply_ite Prod.snd]

theorem stepRecord_stride :
    (draft.stepRecord before rest).2 = (other.stepRecord before rest).2 := by
  unfold stepRecord
  dsimp only
  cases NameChain.read? (rest.drop (Token.attributesLength 0 rest)) with
  | none => simp only [apply_ite Prod.snd]
  | some first => simp only [apply_ite Prod.snd]

theorem stepEnumeration_stride :
    (draft.stepEnumeration rest).2 = (other.stepEnumeration rest).2 := by
  unfold stepEnumeration
  dsimp only
  generalize Token.attributesLength _ _ = lead
  cases NameChain.read? (rest.drop lead) with
  | none => simp only [apply_ite Prod.snd]
  | some first => simp only [apply_ite Prod.snd]

theorem stepPunctuator_stride :
    (draft.stepPunctuator before token rest).2 = (other.stepPunctuator before token rest).2 := by
  unfold stepPunctuator
  split
  case h_12 => 
    cases draft.frame.kind <;> cases other.frame.kind <;> simp only [apply_ite Prod.snd, ite_self]
  all_goals rfl

theorem readTemplate_stride (depth parens count : Nat) (parked others : List (String × Nat)) :
    (readTemplate depth parens count parked before rest).2 =
      (readTemplate depth parens count others before rest).2 := by
  induction rest generalizing depth parens count parked others before with
  | nil => rfl
  | cons token rest ih =>
      simp only [readTemplate]
      split_ifs
      all_goals first
        | rfl
        | exact ih ..

theorem stepTemplate_stride :
    (draft.stepTemplate before token rest).2 = (other.stepTemplate before token rest).2 := by
  unfold stepTemplate
  split
  next => exact readTemplate_stride ..
  next => rfl

theorem stepKeyword_stride :
    (draft.stepKeyword before token rest).2 = (other.stepKeyword before token rest).2 := by
  unfold stepKeyword
  split
  all_goals first
    | rfl
    | exact stepNamespace_stride ..
    | exact stepUsing_stride ..
    | exact stepTemplate_stride ..
    | exact stepRecord_stride ..
    | exact stepEnumeration_stride ..
    | simp only [apply_ite Prod.snd]

/-- How far a step goes does not depend on what has been read. -/
theorem step_stride : (draft.step before token rest).2 = Token.stride before token rest := by
  rw [Token.stride]
  unfold step
  split
  next => exact stepKeyword_stride ..
  next => exact stepName_stride ..
  next => exact stepName_stride ..
  next => exact stepPunctuator_stride ..
  next => rfl
  next => rfl

end Stride

theorem readFrom_cons (draft : Draft) (before : List Token) (token : Token) (rest : List Token) :
    draft.readFrom before (token :: rest) =
      (draft.step before token rest).1.readFrom
        ((rest.take (Token.stride before token rest)).reverse ++ token :: before)
        (rest.drop (Token.stride before token rest)) := by
  rw [readFrom, ← step_stride draft]

/-- What the steps make of a view of the draft. -/
theorem readFrom_foldl {View : Type} (view : Draft → View) (next : View → Stop → View)
    (steps : ∀ (draft : Draft) (stop : Stop),
      view (draft.step stop.before stop.token stop.rest).1 = next (view draft) stop)
    (draft : Draft) (before tokens : List Token) :
    view (draft.readFrom before tokens) = (Token.stops before tokens).foldl next (view draft) := by
  fun_induction Token.stops before tokens generalizing draft with
  | case1 before => rw [readFrom, List.foldl_nil]
  | case2 before token rest more ih =>
      rw [readFrom_cons, ih, steps draft ⟨before, token, rest⟩, List.foldl_cons]

end Draft

end Requalify
