import Requalify.Proofs.Outline.Cursor.Search
import Requalify.Proofs.Outline.Stays

/-!
Each step of a cursor leads it on, keeps a scope open and does what the step over the tokens ahead and behind
does.
-/

namespace Requalify

namespace Cursor

variable {tokens : List Token}

/-- The cursor has come as far as a draft: a scope is open, the same is found, and type definitions have begun
at tokens in front of it. -/
structure Sees (tokens : List Token) (cursor : Cursor) (draft : Draft) : Prop where
  found : ∃ inner, cursor.current = .ok inner ∧ draft = inner.relocate (offsetAt tokens)
  begun : ∀ frame ∈ cursor.frames, ∀ keyword ∈ frame.typedefStart,
    keyword < cursor.index ∧ keyword < tokens.length

/-- The cursor goes on, and what it has seen is the given draft behind the token and the given number of further
tokens. -/
structure Follows (tokens : List Token) (cursor next : Cursor) (result : Draft × Nat) : Prop where
  advances : cursor.index < next.index
  sees : next.Sees tokens result.1
  passes : tokens.take next.index = tokens.take (cursor.index + 1 + result.2)

theorem frames_of_current {cursor : Cursor} {inner : Draft} (now : cursor.current = .ok inner) :
    cursor.frames = inner.frame :: inner.outer := by
  rw [current] at now
  split at now
  next => cases now
  next frames =>
    obtain rfl := Except.ok.inj now
    exact frames

theorem current_goTo {cursor : Cursor} {inner found : Draft} (now : cursor.current = .ok inner)
    (outer : found.outer = inner.outer) (index : Nat) : (cursor.goTo index found).current = .ok found := by
  rw [current, goTo]
  dsimp only
  rw [frames_of_current now, List.tail_cons, ← outer]

section Current

variable {cursor : Cursor} {inner : Draft} (now : cursor.current = .ok inner)
  (begun : ∀ frame ∈ cursor.frames, ∀ keyword ∈ frame.typedefStart,
    keyword < cursor.index ∧ keyword < tokens.length)

include now begun

theorem follows_goTo {found : Draft} (outer : found.outer = inner.outer)
    (typedefStart : ∀ keyword ∈ found.frame.typedefStart,
      keyword ∈ inner.frame.typedefStart ∨ keyword = cursor.index ∧ keyword < tokens.length)
    {index more : Nat} {result : Draft} (same : result = found.relocate (offsetAt tokens))
    (advances : cursor.index < index)
    (passes : tokens.take index = tokens.take (cursor.index + 1 + more)) :
    Follows tokens cursor (cursor.goTo index found) (result, more) where
  advances := advances
  passes := passes
  sees := by
    refine ⟨⟨found, current_goTo now outer index, same⟩, fun frame member keyword isStart => ?_⟩
    rw [frames_of_current now] at begun
    rw [goTo] at member
    dsimp only at member
    rw [frames_of_current now, List.tail_cons] at member
    have known : keyword ≤ cursor.index ∧ keyword < tokens.length := by
      rcases List.mem_cons.mp member with rfl | isOuter
      · rcases typedefStart keyword isStart with old | new
        · have := begun inner.frame List.mem_cons_self keyword old
          omega
        · omega
      · have := begun frame (List.mem_cons_of_mem _ isOuter) keyword isStart
        omega
    exact ⟨Nat.lt_of_le_of_lt known.1 advances, known.2⟩

/-- After a steady change. -/
theorem follows_steady {change : Draft → Draft} (steady : Draft.Steady change) {index more : Nat}
    (advances : cursor.index < index) (passes : tokens.take index = tokens.take (cursor.index + 1 + more)) :
    Follows tokens cursor (cursor.goTo index (change inner))
      (change (inner.relocate (offsetAt tokens)), more) := by
  refine follows_goTo now begun (steady.outer inner) (fun keyword isStart => .inl ?_)
    (steady.relocate _ inner) advances passes
  rwa [steady.typedefStart] at isStart

/-- After a steady change, behind a known number of tokens. -/
theorem follows_by {change : Draft → Draft} (steady : Draft.Steady change) {index more : Nat}
    (indexEq : index = cursor.index + 1 + more) :
    Follows tokens cursor (cursor.goTo index (change inner))
      (change (inner.relocate (offsetAt tokens)), more) :=
  follows_steady now begun steady (by omega) (by rw [indexEq])

theorem skipTo_follows {index more : Nat} (indexEq : index = cursor.index + 1 + more) :
    ∃ next, cursor.skipTo index = .ok next ∧
      Follows tokens cursor next (inner.relocate (offsetAt tokens), more) := by
  rw [skipTo, now, Checked.ok_bind]
  exact ⟨_, rfl, follows_by now begun .same indexEq⟩

end Current

/-- One token may be passed over first. -/
theorem skip_one (index : Nat) (test : Bool) :
    (if test then index + 1 else index) = index + if test then 1 else 0 := by
  split <;> rfl

section Step

variable {cursor : Cursor} {inner : Draft} {token : Token} (here : tokens[cursor.index]? = some token)
  (now : cursor.current = .ok inner)
  (begun : ∀ frame ∈ cursor.frames, ∀ keyword ∈ frame.typedefStart,
    keyword < cursor.index ∧ keyword < tokens.length)

include here now begun

theorem readName_follows : ∃ next, readName tokens cursor = .ok next ∧ Follows tokens cursor next
    ((inner.relocate (offsetAt tokens)).stepName (behind tokens cursor.index) token
      (tokens.drop (cursor.index + 1))) := by
  have inRange := lt_of_some here
  have behindName (chain : NameChain) : (tokens.drop (cursor.index + 1)).drop (chain.size - 1) =
      tokens.drop (cursor.index + chain.size) := by
    have size := chain.size_pos
    rw [List.drop_drop]
    congr 1
    omega
  have follows {chain : NameChain} {change : Draft → Draft} (steady : Draft.Steady change) :
      Follows tokens cursor (cursor.goTo (cursor.index + chain.size) (change inner))
        (change (inner.relocate (offsetAt tokens)), chain.size - 1) := by
    have size := chain.size_pos
    exact follows_by now begun steady (by omega)
  rw [readName, fetch_of_some here, Checked.ok_bind, now, Checked.ok_bind, Draft.stepName,
    ← drop_of_some here]
  dsimp only
  rw [followsDependent_eq (Nat.le_of_lt inRange)]
  cases dependent : token.isScope && Draft.followsDependent (behind tokens cursor.index) with
  | true =>
      have isScope := ((Bool.and_eq_true ..).mp dependent).1
      have positive := dependentLength_pos isScope (tokens.drop (cursor.index + 1))
      rw [← drop_of_some here] at positive
      simp only [if_true, dependentEnd_eq, Checked.ok_bind]
      exact ⟨_, rfl, follows_by now begun .same (by omega)⟩
  | false =>
      simp only [Bool.false_eq_true, if_false, chainAt_eq, Checked.ok_bind]
      cases NameChain.read? (tokens.drop cursor.index) with
      | none => exact ⟨_, rfl, follows_by now begun .same rfl⟩
      | some chain =>
          have expects : (inner.relocate (offsetAt tokens)).expectsEnumerator = inner.expectsEnumerator := rfl
          simp only [Option.map_some, behindName, Draft.readName, expects,
            ← isLabel_eq (Nat.le_of_lt inRange), isDeclarator_eq (Nat.le_of_lt inRange), Checked.ok_bind,
            mentionAt, isConstancy_eq (Nat.le_of_lt inRange)]
          cases chain.isSingle with
          | false => exact ⟨_, rfl, follows (.mention _ _)⟩
          | true =>
              cases inner.expectsEnumerator with
              | true => exact ⟨_, rfl, follows (.declareEnumerator _)⟩
              | false =>
                  cases isLabel tokens inner cursor.index (cursor.index + chain.size) with
                  | true => exact ⟨_, rfl, follows .same⟩
                  | false =>
                      cases (inner.relocate (offsetAt tokens)).isDeclarator (behind tokens cursor.index)
                        (tokens.drop (cursor.index + chain.size)) with
                      | true => exact ⟨_, rfl, follows (.declareVariable _ _)⟩
                      | false => exact ⟨_, rfl, follows (.mention _ _)⟩

theorem readUsing_follows : ∃ next, readUsing tokens cursor = .ok next ∧ Follows tokens cursor next
    ((inner.relocate (offsetAt tokens)).stepUsing token (tokens.drop (cursor.index + 1))) := by
  rw [readUsing, fetch_of_some here, Checked.ok_bind, now, Checked.ok_bind]
  dsimp only
  cases first : tokens[cursor.index + 1]? with
  | none =>
      rw [drop_of_none first]
      exact ⟨_, rfl, follows_by now begun .same rfl⟩
  | some next =>
      rw [drop_of_some first, Draft.stepUsing.eq_def]
      simp only [chainAt_eq, isMarkAt_eq, Checked.ok_bind]
      cases next.isKeyword "namespace" with
      | true =>
          cases NameChain.read? (tokens.drop (cursor.index + 1 + 1)) with
          | none => exact ⟨_, rfl, follows_by now begun .same rfl⟩
          | some target => exact ⟨_, rfl, follows_by now begun (.recordUsing _ _ _ _) (by omega)⟩
      | false =>
          cases next.isIdentifier && Token.startsWith (tokens.drop (cursor.index + 1 + 1)) "=" with
          | true => exact ⟨_, rfl, follows_by now begun (.declare _ _) rfl⟩
          | false =>
              cases next.isKeyword "enum" with
              | true => exact ⟨_, rfl, follows_by now begun .same rfl⟩
              | false =>
                  simp only [Bool.false_eq_true, if_false]
                  rw [skip_one, ← drop_of_some first, List.drop_drop]
                  generalize (if next.isKeyword "typename" = true then 1 else 0) = lead
                  cases NameChain.read? (tokens.drop (cursor.index + 1 + lead)) with
                  | none => exact ⟨_, rfl, follows_by now begun .same rfl⟩
                  | some target =>
                      have further : cursor.index + 1 + lead + target.size =
                          cursor.index + 1 + (lead + target.size) := by omega
                      dsimp only [Option.map_some]
                      cases target.isSingle with
                      | true => exact ⟨_, rfl, follows_by now begun .same further⟩
                      | false => exact ⟨_, rfl, follows_by now begun (.recordUsing _ _ _ _) further⟩

theorem readTemplate_follows : ∃ next, readTemplate tokens cursor = .ok next ∧ Follows tokens cursor next
    ((inner.relocate (offsetAt tokens)).stepTemplate (behind tokens cursor.index) token
      (tokens.drop (cursor.index + 1))) := by
  rw [readTemplate, now, Checked.ok_bind, Draft.stepTemplate]
  simp only [isMarkAt_eq]
  cases Token.startsWith (tokens.drop (cursor.index + 1)) "<" with
  | false => exact ⟨_, rfl, follows_by now begun .same rfl⟩
  | true =>
      have enough : tokens.length - (cursor.index + 1) < tokens.length + 1 := by omega
      obtain ⟨last, more, read, size, further, passed⟩ :=
        parametersFrom_eq 0 0 0 inner.parked enough (Nat.succ_pos cursor.index)
      rw [behind_succ here] at read size
      simp only [if_true, read, Checked.ok_bind]
      have parked : (inner.relocate (offsetAt tokens)).parked = inner.parked := rfl
      rw [Nat.zero_add] at size
      rw [← size] at passed
      rw [parked]
      exact ⟨_, rfl, follows_steady now begun (.setParked _) (by omega) passed⟩

theorem readRecord_follows : ∃ next, readRecord tokens cursor = .ok next ∧ Follows tokens cursor next
    ((inner.relocate (offsetAt tokens)).stepRecord (behind tokens cursor.index)
      (tokens.drop (cursor.index + 1))) := by
  have inRange := lt_of_some here
  rw [readRecord, now, Checked.ok_bind, attributesEnd_eq, Checked.ok_bind, chainAt_eq, Checked.ok_bind,
    Draft.stepRecord, previous?_eq (Nat.le_of_lt inRange)]
  simp only [List.drop_drop, isMarkAt_eq]
  generalize Token.attributesLength 0 (tokens.drop (cursor.index + 1)) = lead
  cases NameChain.read? (tokens.drop (cursor.index + 1 + lead)) with
  | none =>
      dsimp only [Option.map_none]
      cases Token.startsWith (tokens.drop (cursor.index + 1 + lead)) "\x7b" ||
          Token.startsWith (tokens.drop (cursor.index + 1 + lead)) ":" with
      | true => exact ⟨_, rfl, follows_by now begun (.setOpening _) rfl⟩
      | false => exact ⟨_, rfl, follows_by now begun .same rfl⟩
  | some first =>
      have enough : tokens.length - (cursor.index + 1 + lead + first.size) < tokens.length + 1 := by omega
      dsimp only [Option.map_some]
      rw [recordName_eq enough rfl, Checked.ok_bind, Nat.add_assoc (cursor.index + 1) lead first.size]
      obtain ⟨name, count⟩ := Draft.recordName lead first
        (tokens.drop (cursor.index + 1 + (lead + first.size)))
      dsimp only
      rw [attributesEnd_eq, Checked.ok_bind, Token.attributesLength_add (count + name.size),
        Nat.add_assoc (cursor.index + 1) count name.size]
      simp only [opensRecord_eq, Nat.add_assoc (cursor.index + 1) (count + name.size)]
      generalize count + name.size = stop
      generalize stop + Token.attributesLength 0 (tokens.drop (cursor.index + 1 + stop)) = after
      rw [← Token.startsWithKeyword]
      cases Token.startsWithKeyword (behind tokens cursor.index) "friend" ||
          !(Token.startsWith (tokens.drop (cursor.index + 1 + after)) ";" ||
            Draft.opensRecord (tokens.drop (cursor.index + 1 + after))) with
      | true => exact ⟨_, rfl, follows_by now begun (.mention _ _) rfl⟩
      | false =>
          have declared : Draft.Steady fun draft =>
              if name.isSingle then draft.declare name.last .record else draft := by
            cases name.isSingle with
            | true => exact .declare _ _
            | false => exact .same
          cases Token.startsWith (tokens.drop (cursor.index + 1 + after)) ";" with
          | true => exact ⟨_, rfl, follows_by now begun declared rfl⟩
          | false => exact ⟨_, rfl, follows_by now begun (.after (.setOpening (some .record)) declared) rfl⟩

omit here in
theorem readEnumeration_follows : ∃ next, readEnumeration tokens cursor = .ok next ∧
    Follows tokens cursor next ((inner.relocate (offsetAt tokens)).stepEnumeration
      (tokens.drop (cursor.index + 1))) := by
  rw [readEnumeration, now, Checked.ok_bind, Draft.stepEnumeration]
  dsimp only
  simp only [isKeywordAt_eq]
  generalize (Token.startsWithKeyword (tokens.drop (cursor.index + 1)) "class" ||
    Token.startsWithKeyword (tokens.drop (cursor.index + 1)) "struct") = closed
  rw [skip_one, attributesEnd_eq, Checked.ok_bind]
  generalize (if closed then 1 else 0) = lead
  rw [Token.attributesLength_add lead]
  simp only [List.drop_drop, Nat.add_assoc (cursor.index + 1)]
  generalize lead + Token.attributesLength 0 (tokens.drop (cursor.index + 1 + lead)) = lead
  rw [chainAt_eq, Checked.ok_bind]
  simp only [isMarkAt_eq]
  generalize NameChain.read? (tokens.drop (cursor.index + 1 + lead)) = name?
  have stop : ((name?.map fun chain => (chain, cursor.index + 1 + lead + chain.size)).map (·.2)).getD
      (cursor.index + 1 + lead) = cursor.index + 1 + (lead + (name?.map NameChain.size).getD 0) := by
    cases name? with
    | none => rfl
    | some name => exact Nat.add_assoc ..
  rw [stop]
  generalize lead + (name?.map NameChain.size).getD 0 = stop
  generalize Token.startsWith (tokens.drop (cursor.index + 1 + stop)) "\x7b" = body
  generalize Token.startsWith (tokens.drop (cursor.index + 1 + stop)) ":" = underlying
  have declared : Draft.Steady fun draft => match name? with
      | some name => if name.isSingle then draft.declare name.last .enumeration else draft
      | none => draft := by
    cases name? with
    | none => exact .same
    | some name =>
        dsimp only
        cases name.isSingle with
        | true => exact .declare _ _
        | false => exact .same
  have opened := Draft.Steady.after (.setOpening (some (.enumeration closed))) declared
  cases body || underlying || Token.startsWith (tokens.drop (cursor.index + 1 + stop)) ";" with
  | false =>
      cases name? with
      | none => exact ⟨_, rfl, follows_by now begun .same rfl⟩
      | some name => exact ⟨_, rfl, follows_by now begun (.mention _ _) rfl⟩
  | true =>
      simp only [if_true]
      cases underlying with
      | true =>
          rw [Bool.or_true]
          cases name? <;> exact ⟨_, rfl, follows_by now begun opened rfl⟩
      | false =>
          rw [Bool.or_false]
          cases body with
          | true => cases name? <;> exact ⟨_, rfl, follows_by now begun opened rfl⟩
          | false => cases name? <;> exact ⟨_, rfl, follows_by now begun declared rfl⟩

theorem readNamespace_follows : ∃ next, readNamespace tokens cursor = .ok next ∧
    Follows tokens cursor next ((inner.relocate (offsetAt tokens)).stepNamespace
      (behind tokens cursor.index) token (tokens.drop (cursor.index + 1))) := by
  have inRange := lt_of_some here
  rw [readNamespace, fetch_of_some here, Checked.ok_bind, now, Checked.ok_bind, Draft.stepNamespace]
  dsimp only
  rw [previous?_eq (Nat.le_of_lt inRange), ← Token.startsWithKeyword, attributesEnd_eq, Checked.ok_bind]
  simp only [isMarkAt_eq, List.drop_drop]
  generalize Token.attributesLength 0 (tokens.drop (cursor.index + 1)) = lead
  cases Token.startsWith (tokens.drop (cursor.index + 1 + lead)) "\x7b" with
  | true => exact ⟨_, rfl, follows_by now begun (.setOpening _) rfl⟩
  | false =>
      simp only [Bool.false_eq_true, if_false]
      have enough : tokens.length - (cursor.index + 1 + lead) < tokens.length + 1 := by omega
      obtain ⟨names, more, read, same⟩ :=
        definitionNames_eq (Token.startsWithKeyword (behind tokens cursor.index) "inline") [] enough
      rw [read, Checked.ok_bind, same]
      dsimp only
      rw [Nat.zero_add, attributesEnd_eq, Checked.ok_bind, Token.attributesLength_add (lead + more),
        Nat.add_assoc (cursor.index + 1) lead more, Nat.add_assoc (cursor.index + 1) (lead + more)]
      generalize lead + more + Token.attributesLength 0 (tokens.drop (cursor.index + 1 + (lead + more))) = stop
      rw [chainAt_eq, Nat.add_assoc (cursor.index + 1) stop 1]
      have opened := Draft.Steady.setOpening (some (.named names))
      rcases names with _ | ⟨⟨name, isInline⟩, _ | ⟨second, names⟩⟩
      case nil => exact ⟨_, rfl, follows_by now begun .same rfl⟩
      case cons.nil =>
        cases NameChain.read? (tokens.drop (cursor.index + 1 + (stop + 1))) with
        | none =>
            cases Token.startsWith (tokens.drop (cursor.index + 1 + stop)) "=" <;>
              cases Token.startsWith (tokens.drop (cursor.index + 1 + stop)) "\x7b"
            · exact ⟨_, rfl, follows_by now begun .same rfl⟩
            · exact ⟨_, rfl, follows_by now begun opened rfl⟩
            · exact ⟨_, rfl, follows_by now begun .same rfl⟩
            · exact ⟨_, rfl, follows_by now begun opened rfl⟩
        | some target =>
            have further : cursor.index + 1 + (stop + 1) + target.size =
                cursor.index + 1 + (stop + 1 + target.size) := Nat.add_assoc ..
            cases Token.startsWith (tokens.drop (cursor.index + 1 + stop)) "=" with
            | true => exact ⟨_, rfl, follows_by now begun (.recordUsing _ _ _ _) further⟩
            | false =>
                cases Token.startsWith (tokens.drop (cursor.index + 1 + stop)) "\x7b" with
                | true => exact ⟨_, rfl, follows_by now begun opened rfl⟩
                | false => exact ⟨_, rfl, follows_by now begun .same rfl⟩
      case cons.cons =>
        cases Token.startsWith (tokens.drop (cursor.index + 1 + stop)) "\x7b" with
        | true => exact ⟨_, rfl, follows_by now begun opened rfl⟩
        | false => exact ⟨_, rfl, follows_by now begun .same rfl⟩

theorem endStatement_follows (ordered : (tokens.map Token.start).Pairwise (· < ·)) :
    ∃ next, endStatement tokens cursor = .ok next ∧ Follows tokens cursor next
      ((inner.relocate (offsetAt tokens)).endStatement (behind tokens cursor.index), 0) := by
  have forgotten {change : Draft → Draft} (steady : Draft.Steady change) :
      Follows tokens cursor (cursor.goTo (cursor.index + 1) (change inner.forgetStatement))
        (change (inner.relocate (offsetAt tokens)).forgetStatement, 0) := by
    refine follows_goTo now begun ?_ ?_ ?_ (Nat.lt_succ_self _) rfl
    · exact steady.outer inner.forgetStatement
    · rw [steady.typedefStart]
      rintro keyword ⟨⟩
    · exact steady.relocate _ inner.forgetStatement
  have closed := Draft.Steady.after (.setParked []) (.setOpening none)
  rw [endStatement, now, Checked.ok_bind, Draft.endStatement]
  have parens : (inner.relocate (offsetAt tokens)).frame.parens = inner.frame.parens := rfl
  dsimp only
  rw [parens]
  by_cases outside : inner.frame.parens = 0
  · rw [if_pos outside, if_pos outside]
    have typedefStart : (inner.relocate (offsetAt tokens)).frame.typedefStart =
        inner.frame.typedefStart.map (offsetAt tokens) := rfl
    rw [typedefStart]
    cases started : inner.frame.typedefStart with
    | none => exact ⟨_, rfl, forgotten closed⟩
    | some keyword =>
        have inRange := lt_of_some here
        have member : inner.frame ∈ cursor.frames := frames_of_current now ▸ List.mem_cons_self
        have known := begun inner.frame member keyword started
        dsimp only [Option.map_some]
        rw [finishTypedef_eq (Nat.le_of_lt inRange), Checked.ok_bind,
          takeWhile_behind ordered known.1 (Nat.le_of_lt inRange)]
        exact ⟨_, rfl, forgotten (closed.after (.finishTypedef _))⟩
  · rw [if_neg outside, if_neg outside]
    exact ⟨_, rfl, follows_by now begun .same rfl⟩

theorem openScope_follows : ∃ next, openScope tokens cursor = .ok next ∧ Follows tokens cursor next
    ((inner.relocate (offsetAt tokens)).openScope token
      (Token.startsWithIdentifier (behind tokens cursor.index)), 0) := by
  have frames := frames_of_current now
  have inRange := lt_of_some here
  rw [openScope, fetch_of_some here, Checked.ok_bind, now, Checked.ok_bind, previous?_eq (Nat.le_of_lt inRange),
    ← Token.startsWithIdentifier, Draft.relocate_openScope]
  generalize Token.startsWithIdentifier (behind tokens cursor.index) = afterName
  have outer : (inner.openScope token afterName).outer = cursor.frames := by
    rw [frames]
    exact congrArg (·.2.2.2) (inner.openScope_skeleton token afterName)
  refine ⟨_, rfl, Nat.lt_succ_self _, ⟨⟨inner.openScope token afterName, ?_, rfl⟩, ?_⟩, rfl⟩
  · dsimp only [current]
    rw [← outer]
  · intro frame member keyword isStart
    rcases List.mem_cons.mp member with rfl | old
    · cases isStart
    · have := begun frame old keyword isStart
      dsimp only
      omega

theorem closeScope_follows : ∃ next, closeScope tokens cursor = .ok next ∧ Follows tokens cursor next
    ((inner.relocate (offsetAt tokens)).closeScope token, 0) := by
  have frames := frames_of_current now
  rw [frames] at begun
  rw [closeScope, fetch_of_some here, Checked.ok_bind, frames]
  rw [current, frames] at now
  have seen : { cursor.found with frame := inner.frame, outer := inner.outer } = inner := Except.ok.inj now
  have stays : ∀ frame ∈ inner.frame :: inner.outer, ∀ keyword ∈ frame.typedefStart,
      keyword < cursor.index + 1 ∧ keyword < tokens.length := fun frame member keyword isStart => by
    have := begun frame member keyword isStart
    omega
  cases parts : inner.outer with
  | nil =>
      rw [Draft.closeScope_of_nil (by rw [Draft.relocate, parts]; rfl), if_neg (by simp)]
      refine ⟨_, rfl, Nat.lt_succ_self _, ⟨⟨{ inner with opening := none }, ?_, rfl⟩, ?_⟩, rfl⟩
      · dsimp only [current]
        rw [← parts]
        exact congrArg (fun draft : Draft => Except.ok { draft with opening := none }) seen
      · rw [← parts]
        exact stays
  | cons around outer =>
      rw [Draft.closeScope_of_outer (by rw [Draft.relocate, parts]; rfl), if_pos (by simp)]
      refine ⟨_, rfl, Nat.lt_succ_self _, ⟨⟨{ inner with
        scopes := inner.endScope token, frame := around, outer := outer, opening := none }, ?_, rfl⟩, ?_⟩, rfl⟩
      · exact congrArg (fun draft : Draft => Except.ok { draft with
          scopes := draft.endScope token, frame := around, outer := outer, opening := none }) seen
      · intro frame member
        exact stays frame (List.mem_cons_of_mem _ (parts ▸ member))

theorem beginTypedef_follows : ∃ next, cursor.beginTypedef = .ok next ∧ Follows tokens cursor next
    ({ inner.relocate (offsetAt tokens) with
      frame := { (inner.relocate (offsetAt tokens)).frame with typedefStart := some token.start } }, 0) := by
  have inRange := lt_of_some here
  have start : token.start = offsetAt tokens cursor.index := by
    rw [offsetAt, here]
    rfl
  rw [beginTypedef, now, Checked.ok_bind, start]
  refine ⟨_, rfl, follows_goTo now begun ?_ ?_ ?_ (Nat.lt_succ_self _) rfl⟩
  · rfl
  · rintro keyword ⟨⟩
    exact .inr ⟨rfl, inRange⟩
  · rfl

omit here in
theorem readLinkage_follows : ∃ next, readLinkage tokens cursor = .ok next ∧ Follows tokens cursor next
    (if (tokens.drop (cursor.index + 1)).head?.any (·.kind == .literal) &&
        Token.startsWith ((tokens.drop (cursor.index + 1)).drop 1) "\x7b" then
      ({ inner.relocate (offsetAt tokens) with opening := some .linkage }, 1)
    else (inner.relocate (offsetAt tokens), 0)) := by
  rw [readLinkage, now, Checked.ok_bind, isMarkAt_eq, head?_drop, List.drop_drop]
  cases tokens[cursor.index + 1]?.any (·.kind == .literal) &&
      Token.startsWith (tokens.drop (cursor.index + 2)) "\x7b" with
  | true => exact ⟨_, rfl, follows_by now begun (.setOpening _) rfl⟩
  | false => exact ⟨_, rfl, follows_by now begun .same rfl⟩

theorem readKeyword_follows : ∃ next, readKeyword tokens cursor token = .ok next ∧
    Follows tokens cursor next ((inner.relocate (offsetAt tokens)).stepKeyword (behind tokens cursor.index)
      token (tokens.drop (cursor.index + 1))) := by
  have colon : ∃ next, cursor.skipTo (if isMarkAt tokens (cursor.index + 1) ":" then cursor.index + 2
        else cursor.index + 1) = .ok next ∧
      Follows tokens cursor next (inner.relocate (offsetAt tokens),
        if Token.startsWith (tokens.drop (cursor.index + 1)) ":" then 1 else 0) := by
    rw [isMarkAt_eq]
    cases Token.startsWith (tokens.drop (cursor.index + 1)) ":" with
    | true => exact skipTo_follows now begun rfl
    | false => exact skipTo_follows now begun rfl
  rw [Draft.stepKeyword]
  split
  next text => rw [readKeyword, text]; exact readNamespace_follows here now begun
  next text => rw [readKeyword, text]; exact readUsing_follows here now begun
  next text => rw [readKeyword, text]; exact readTemplate_follows here now begun
  next text => rw [readKeyword, text]; exact readRecord_follows here now begun
  next text => rw [readKeyword, text]; exact readRecord_follows here now begun
  next text => rw [readKeyword, text]; exact readRecord_follows here now begun
  next text => rw [readKeyword, text]; exact readEnumeration_follows now begun
  next text => rw [readKeyword, text]; exact beginTypedef_follows here now begun
  next text =>
    simp only [readKeyword, text]
    rw [operatorEnd_eq]
    exact skipTo_follows now begun rfl
  next text => rw [readKeyword, text]; exact readLinkage_follows now begun
  next text => rw [readKeyword, text]; exact skipTo_follows now begun rfl
  next text => rw [readKeyword, text]; exact colon
  next text => rw [readKeyword, text]; exact colon
  next text => rw [readKeyword, text]; exact colon
  next =>
    rw [readKeyword]
    split
    all_goals first
      | contradiction
      | exact skipTo_follows now begun rfl

omit here in
theorem setParens_follows (change : Nat → Nat) : ∃ next, cursor.setParens change = .ok next ∧
    Follows tokens cursor next ((inner.relocate (offsetAt tokens)).setParens
      (change (inner.relocate (offsetAt tokens)).frame.parens), 0) := by
  rw [setParens, now, Checked.ok_bind]
  exact ⟨_, rfl, follows_by now begun (.setParens _) rfl⟩

omit here in
theorem readComma_follows : ∃ next, cursor.readComma = .ok next ∧ Follows tokens cursor next
    (match (inner.relocate (offsetAt tokens)).frame.kind with
      | .enumeration _ =>
          if (inner.relocate (offsetAt tokens)).frame.parens = 0 then
            ({ inner.relocate (offsetAt tokens) with
              frame := { (inner.relocate (offsetAt tokens)).frame with awaitsEnumerator := true } }, 0)
          else (inner.relocate (offsetAt tokens), 0)
      | _ => (inner.relocate (offsetAt tokens), 0)) := by
  have kind : (inner.relocate (offsetAt tokens)).frame.kind = inner.frame.kind := rfl
  have parens : (inner.relocate (offsetAt tokens)).frame.parens = inner.frame.parens := rfl
  rw [readComma, now, Checked.ok_bind, kind, parens]
  cases around : inner.frame.kind with
  | enumeration closed =>
      dsimp only
      by_cases outside : inner.frame.parens = 0
      · rw [if_pos outside, if_pos outside]
        exact ⟨_, rfl, follows_by now begun (.setAwaits true) rfl⟩
      · rw [if_neg outside, if_neg outside]
        exact ⟨_, rfl, follows_by now begun .same rfl⟩
  | _ => exact ⟨_, rfl, follows_by now begun .same rfl⟩

theorem readPunctuator_follows (ordered : (tokens.map Token.start).Pairwise (· < ·))
    (isMark : token.kind = .punctuator) : ∃ next, readPunctuator tokens cursor token = .ok next ∧
    Follows tokens cursor next ((inner.relocate (offsetAt tokens)).stepPunctuator (behind tokens cursor.index)
      token (tokens.drop (cursor.index + 1))) := by
  have member : ∃ next, (memberEnd tokens (cursor.index + 1) >>= cursor.skipTo) = .ok next ∧
      Follows tokens cursor next
        (inner.relocate (offsetAt tokens), Token.memberLength (tokens.drop (cursor.index + 1))) := by
    rw [memberEnd_eq, Checked.ok_bind]
    exact skipTo_follows now begun rfl
  rw [Draft.stepPunctuator]
  split
  next text => rw [readPunctuator, text]; exact openScope_follows here now begun
  next text => rw [readPunctuator, text]; exact closeScope_follows here now begun
  next text => rw [readPunctuator, text]; exact endStatement_follows here now begun ordered
  next text => rw [readPunctuator, text]; exact setParens_follows now begun (· + 1)
  next text => rw [readPunctuator, text]; exact setParens_follows now begun (· - 1)
  next text =>
    have opens : token.isPunctuator "[" = true := by
      rw [Token.isPunctuator, isMark, text]
      rfl
    simp only [readPunctuator, text]
    rw [isMarkAt_eq, groupEnd_of_opening here opens]
    cases Token.startsWith (tokens.drop (cursor.index + 1)) "[" with
    | true => exact skipTo_follows now begun rfl
    | false => exact skipTo_follows now begun rfl
  next text => rw [readPunctuator, text]; exact member
  next text => rw [readPunctuator, text]; exact member
  next text => rw [readPunctuator, text]; exact member
  next text => rw [readPunctuator, text]; exact member
  next text =>
    simp only [readPunctuator, text]
    rw [isNameAt_eq, isMarkAt_eq, List.drop_drop]
    cases Token.startsWithIdentifier (tokens.drop (cursor.index + 1)) &&
        Token.startsWith (tokens.drop (cursor.index + 2)) "(" with
    | true => exact skipTo_follows now begun rfl
    | false => exact skipTo_follows now begun rfl
  next text => rw [readPunctuator, text]; exact readComma_follows now begun
  next =>
    rw [readPunctuator]
    split
    all_goals first
      | contradiction
      | exact skipTo_follows now begun rfl

/-- A dispatch leads the cursor on, as the step over the tokens ahead and behind. -/
theorem dispatch_follows (ordered : (tokens.map Token.start).Pairwise (· < ·)) :
    ∃ next, dispatch tokens cursor = .ok next ∧ Follows tokens cursor next
      ((inner.relocate (offsetAt tokens)).step (behind tokens cursor.index) token
        (tokens.drop (cursor.index + 1))) := by
  rw [dispatch, fetch_of_some here, Checked.ok_bind, Draft.step]
  cases kind : token.kind with
  | keyword => exact readKeyword_follows here now begun
  | identifier => exact readName_follows here now begun
  | scope => exact readName_follows here now begun
  | punctuator => exact readPunctuator_follows here now begun ordered kind
  | number => exact skipTo_follows now begun rfl
  | literal => exact skipTo_follows now begun rfl

end Step

end Cursor

end Requalify
