import Requalify.Proofs.Outline.Cursor
import Requalify.Proofs.Outline.Lookahead
import Requalify.Proofs.Outline.Steady

/-!
The searches of a cursor end without a fault and find what the searches over the tokens ahead and behind find.
-/

namespace Requalify

namespace Cursor

variable {tokens : List Token}

/-- The offset of the token at an index. -/
def offsetAt (tokens : List Token) (index : Nat) : Nat :=
  (tokens[index]?.map Token.start).getD 0

/-! Names. -/

section Behind

variable {index : Nat} (inRange : index ≤ tokens.length)

include inRange

theorem isLabel_eq (inner : Draft) (stop : Nat) : isLabel tokens inner index stop =
    (inner.relocate (offsetAt tokens)).isLabel (behind tokens index) (tokens.drop stop) := by
  rw [isLabel, isMarkAt_eq, previous?_eq inRange, Draft.isLabel.eq_def]
  cases behind tokens index with
  | nil => rfl
  | cons previous before => rfl

theorem isConstancy_eq : (previous? tokens index).any Token.isConstancy =
    (behind tokens index).head?.any Token.isConstancy := by
  rw [previous?_eq inRange]

theorem followsDependent_eq : ((previous? tokens index).any fun previous =>
    previous.isIdentifier || previous.isPunctuator ">" || previous.isPunctuator ")" ||
      previous.isPunctuator "]") = Draft.followsDependent (behind tokens index) := by
  rw [previous?_eq inRange, Draft.followsDependent.eq_def]
  cases behind tokens index with
  | nil => rfl
  | cons previous before => rfl

end Behind

theorem not_comma_of_isIndirection {token : Token} (isMark : token.isIndirection = true) :
    token.isPunctuator "," = false := by
  simp only [Token.isIndirection, Bool.or_eq_true] at isMark
  rcases isMark with (star | single) | double
  · exact Token.not_isPunctuator_of_isPunctuator star (by decide)
  · exact Token.not_isPunctuator_of_isPunctuator single (by decide)
  · exact Token.not_isPunctuator_of_isPunctuator double (by decide)

/-- What stands in front of `*` and `&`; at the beginning of the text the search ends at them. -/
theorem indirectionStart_eq {index : Nat} (inRange : index < tokens.length) :
    ∃ first token, indirectionStart tokens index = .ok first ∧ tokens[first]? = some token ∧
      Token.startsWith ((behind tokens (index + 1)).dropWhile Token.isIndirection) "," =
        token.isPunctuator "," := by
  induction index with
  | zero =>
      have here : tokens[0]? = some tokens[0] := List.getElem?_eq_getElem inRange
      refine ⟨0, tokens[0], rfl, here, ?_⟩
      rw [behind_succ here, behind_zero, List.dropWhile_cons]
      split
      next isMark => exact (not_comma_of_isIndirection isMark).symm
      next => rfl
  | succ index ih =>
      have here : tokens[index + 1]? = some tokens[index + 1] := List.getElem?_eq_getElem inRange
      rw [indirectionStart, fetch_of_some here, Checked.ok_bind, behind_succ here, List.dropWhile_cons]
      split
      next isMark => exact ih (by omega)
      next => exact ⟨index + 1, _, rfl, here, rfl⟩

theorem isDeclarator_eq {index : Nat} (inRange : index ≤ tokens.length) (inner : Draft) (stop : Nat) :
    isDeclarator tokens inner index stop = .ok ((inner.relocate (offsetAt tokens)).isDeclarator
      (behind tokens index) (tokens.drop stop)) := by
  rw [isDeclarator]
  cases next : tokens[stop]? with
  | none =>
      rw [drop_of_none next]
      rfl
  | some follows =>
      rw [drop_of_some next, Draft.isDeclarator.eq_def]
      dsimp only
      cases test : follows.kind == .punctuator && Draft.declaratorFollows.contains follows.text with
      | false =>
          have stops : (follows.kind != .punctuator || !Draft.declaratorFollows.contains follows.text) =
              true := by
            rw [bne, ← Bool.not_and, test]
            rfl
          rw [stops]
          rfl
      | true =>
          have goesOn : (follows.kind != .punctuator || !Draft.declaratorFollows.contains follows.text) =
              false := by
            rw [bne, ← Bool.not_and, test]
            rfl
          rw [goesOn, Bool.true_and]
          cases index with
          | zero =>
              rw [behind_zero]
              rfl
          | succ last =>
              have isToken : last < tokens.length := inRange
              obtain ⟨first, token, start, found, comma⟩ := indirectionStart_eq isToken
              have isSome : (previous? tokens (last + 1)).isNone = false := by
                rw [previous?, List.getElem?_eq_getElem inRange]
                rfl
              rw [isSome, less, comma]
              simp only [Bool.false_eq_true, if_false, Checked.ok_bind, start, fetch_of_some found]
              split
              next => rfl
              next => exact endsType_eq inRange

/-! Declarations with a form of their own. -/

/-- The names behind a name, if those behind its separator are the same. -/
theorem namesBehind_eq {outerInline : Bool} {rounds last : Nat} {names : List (String × Bool)}
    (others : ∃ found more,
      definitionNames tokens outerInline rounds (last + 2) names = .ok (found, last + 2 + more) ∧
      ∀ count, Draft.definitionNames outerInline names count (tokens.drop (last + 2)) =
        (found, count + more)) :
    ∃ found more,
      (if isSeparatorAt tokens (last + 1) then definitionNames tokens outerInline rounds (last + 2) names
        else .ok (names.reverse, last + 1)) = .ok (found, last + 1 + more) ∧
      ∀ count, Draft.namesBehind outerInline names count (tokens.drop (last + 1)) =
        (found, count + more) := by
  cases separator : isSeparatorAt tokens (last + 1) with
  | false =>
      refine ⟨names.reverse, 0, rfl, fun count => ?_⟩
      rw [Draft.namesBehind, head?_drop, ← isSeparatorAt, separator]
      rfl
  | true =>
      obtain ⟨found, more, read, same⟩ := others
      refine ⟨found, more + 1, ?_, fun count => ?_⟩
      · rw [if_pos rfl, read]
        congr 2
        omega
      · rw [Draft.namesBehind, head?_drop, ← isSeparatorAt, separator, if_pos rfl, List.drop_drop, same]
        congr 1
        omega

theorem definitionNames_eq (outerInline : Bool) {rounds index : Nat} (names : List (String × Bool))
    (enough : tokens.length - index < rounds) :
    ∃ found more, definitionNames tokens outerInline rounds index names = .ok (found, index + more) ∧
      ∀ count, Draft.definitionNames outerInline names count (tokens.drop index) = (found, count + more) := by
  induction rounds generalizing index names with
  | zero => omega
  | succ rounds ih =>
      rw [definitionNames]
      dsimp only
      cases isInline : isKeywordAt tokens index "inline" with
      | false =>
          rw [isKeywordAt_eq] at isInline
          simp only [Bool.false_eq_true, if_false, Bool.false_or]
          cases isName : isNameAt tokens index with
          | false =>
              rw [filter_isIdentifier isName]
              refine ⟨_, 0, rfl, fun count => ?_⟩
              rw [isNameAt_eq] at isName
              exact Draft.definitionNames_of_other outerInline names count isInline isName
          | true =>
              obtain ⟨name, here, isIdentifier⟩ := exists_of_isNameAt isName
              have inRange := lt_of_some here
              obtain ⟨found, more, read, same⟩ := namesBehind_eq
                (@ih (index + 2) ((name.text, names.isEmpty && outerInline) :: names) (by omega))
              rw [here, Option.filter_some, if_pos isIdentifier]
              refine ⟨found, more + 1, read.trans ?_, fun count => ?_⟩
              · congr 2
                omega
              · rw [drop_of_some here, Draft.definitionNames_of_name _ _ _ isIdentifier, same]
                congr 1
                omega
      | true =>
          obtain ⟨keyword, here, isKeyword⟩ := (Option.any_eq_true ..).mp isInline
          simp only [if_true, Bool.true_or]
          cases isName : isNameAt tokens (index + 1) with
          | false =>
              rw [filter_isIdentifier isName]
              refine ⟨_, 1, rfl, fun count => ?_⟩
              rw [isNameAt_eq] at isName
              rw [drop_of_some here]
              exact Draft.definitionNames_of_inline outerInline names count isKeyword isName
          | true =>
              obtain ⟨name, next, isIdentifier⟩ := exists_of_isNameAt isName
              have inRange := lt_of_some next
              obtain ⟨found, more, read, same⟩ :=
                namesBehind_eq (@ih (index + 1 + 2) ((name.text, true) :: names) (by omega))
              rw [next, Option.filter_some, if_pos isIdentifier]
              refine ⟨found, more + 2, read.trans ?_, fun count => ?_⟩
              · congr 2
                omega
              · rw [drop_of_some here, drop_of_some next,
                  Draft.definitionNames_of_inlineName _ _ _ isKeyword isIdentifier, same]
                congr 1
                omega

theorem isTemplateParameter_eq {index : Nat} (positive : 0 < index) (inRange : index < tokens.length) :
    isTemplateParameter tokens index =
      .ok (Draft.isTemplateParameter (behind tokens index) (tokens.drop (index + 1))) := by
  obtain ⟨last, rfl⟩ := Nat.exists_eq_succ_of_ne_zero (Nat.ne_of_gt positive)
  rw [isTemplateParameter, Draft.isTemplateParameter, previous?_eq (Nat.le_of_lt inRange)]
  simp only [isMarkAt_eq, less, Checked.ok_bind, endsType_eq (Nat.lt_of_succ_lt inRange)]
  cases Token.startsWith (tokens.drop (last.succ + 1)) "," ||
      Token.startsWith (tokens.drop (last.succ + 1)) ">" ||
      Token.startsWith (tokens.drop (last.succ + 1)) "=" with
  | false => rfl
  | true =>
      simp only [if_true, Bool.true_and, Token.startsWithKeyword]
      rw [behind_succ (List.getElem?_eq_getElem (Nat.lt_of_succ_lt inRange)), List.head?_cons, Option.any_some,
        Option.any_some, Option.any_some]
      split
      next isType => rw [isType, Bool.true_or]; rfl
      next other => rw [Bool.not_eq_true] at other; rw [other, Bool.false_or]

/-- Parameters are parked up to the end of their list. Behind the last token the cursor may go one too far. -/
theorem parametersFrom_eq {rounds index : Nat} (depth parens count : Nat) (parked : List (String × Nat))
    (enough : tokens.length - index < rounds) (positive : 0 < index) :
    ∃ last more, parametersFrom tokens rounds index depth parens parked = .ok ((Draft.readTemplate depth
        parens count parked (behind tokens index) (tokens.drop index)).1, last) ∧
      (Draft.readTemplate depth parens count parked (behind tokens index) (tokens.drop index)).2 =
        count + more ∧
      index ≤ last ∧ tokens.take (last + 1) = tokens.take (index + more) := by
  induction rounds generalizing index depth parens count parked with
  | zero => omega
  | succ rounds ih =>
      rw [parametersFrom]
      cases here : tokens[index]? with
      | none =>
          -- The list has no end: nothing is left, and one token more or less is the same.
          have atEnd := List.getElem?_eq_none_iff.mp here
          refine ⟨index, 0, by rw [drop_of_none here]; rfl, by rw [drop_of_none here]; rfl, Nat.le_refl _, ?_⟩
          rw [List.take_of_length_le (by omega), List.take_of_length_le (by omega)]
      | some token =>
          have inRange := lt_of_some here
          have stops (parked : List (String × Nat)) : ∃ last more,
              (Except.ok (parked, index) : Checked _) = .ok ((parked, count + 1).1, last) ∧
              (parked, count + 1).2 = count + more ∧ index ≤ last ∧
              tokens.take (last + 1) = tokens.take (index + more) :=
            ⟨index, 1, rfl, rfl, Nat.le_refl _, rfl⟩
          have passes (depth parens : Nat) (parked : List (String × Nat)) : ∃ last more,
              parametersFrom tokens rounds (index + 1) depth parens parked = .ok ((Draft.readTemplate depth
                parens (count + 1) parked (token :: behind tokens index) (tokens.drop (index + 1))).1, last) ∧
              (Draft.readTemplate depth parens (count + 1) parked (token :: behind tokens index)
                (tokens.drop (index + 1))).2 = count + more ∧ index ≤ last ∧
              tokens.take (last + 1) = tokens.take (index + more) := by
            obtain ⟨last, more, read, size, further, passed⟩ :=
              @ih (index + 1) depth parens (count + 1) parked (by omega) (by omega)
            rw [behind_succ here] at read size
            refine ⟨last, more + 1, read, by omega, by omega, ?_⟩
            rw [passed]
            congr 1
            omega
          rw [drop_of_some here, Draft.readTemplate]
          dsimp only
          cases token.isPunctuator "(" with
          | true => exact passes _ _ _
          | false =>
              cases token.isPunctuator ")" with
              | true => exact passes _ _ _
              | false =>
                  cases parens == 0 && token.isPunctuator "<" with
                  | true => exact passes _ _ _
                  | false =>
                      cases parens == 0 && token.isPunctuator ">" with
                      | true =>
                          by_cases last : depth ≤ 1
                          · have zero : depth - 1 = 0 := by omega
                            simp only [Bool.false_eq_true, if_false, if_true, last, zero]
                            exact stops _
                          · have some : ¬depth - 1 = 0 := by omega
                            simp only [Bool.false_eq_true, if_false, if_true, last, some]
                            exact passes _ _ _
                      | false =>
                          cases token.isPunctuator ";" || token.isPunctuator "\x7b" with
                          | true => exact stops _
                          | false =>
                              simp only [Bool.false_eq_true, if_false]
                              cases depth == 1 && parens == 0 && token.isIdentifier with
                              | false => exact passes _ _ _
                              | true =>
                                  rw [if_pos rfl, isTemplateParameter_eq positive inRange, Checked.ok_bind,
                                    Bool.true_and]
                                  exact passes _ _ _

theorem opensRecord_eq (index : Nat) : opensRecord tokens index = Draft.opensRecord (tokens.drop index) := by
  simp only [opensRecord, Draft.opensRecord, isMarkAt_eq, isKeywordAt_eq]

/-- The name of a record head, behind `base` tokens and `count` more. -/
theorem recordName_eq {base count rounds stop : Nat} {name : NameChain}
    (enough : tokens.length - stop < rounds) (stopEq : stop = base + count + name.size) :
    recordName tokens rounds name stop = .ok ((Draft.recordName count name (tokens.drop stop)).1,
      base + (Draft.recordName count name (tokens.drop stop)).2 +
        (Draft.recordName count name (tokens.drop stop)).1.size) := by
  induction rounds generalizing count stop name with
  | zero => omega
  | succ rounds ih =>
      rw [recordName]
      simp only [attributesEnd_eq, Checked.ok_bind, chainAt_eq]
      have ahead : Token.afterAttributes (tokens.drop stop) =
          tokens.drop (stop + Token.attributesLength 0 (tokens.drop stop)) := by
        rw [Token.afterAttributes, List.drop_drop]
      cases read : NameChain.read? (tokens.drop (stop + Token.attributesLength 0 (tokens.drop stop))) with
      | none =>
          rw [Draft.recordName_of_none (by rw [ahead, read]), stopEq]
          rfl
      | some candidate =>
          have positive := candidate.size_pos
          have inRange : stop + Token.attributesLength 0 (tokens.drop stop) < tokens.length := by
            by_contra outside
            exact NameChain.ne_nil_of_read? read (List.drop_eq_nil_iff.mpr (by omega))
          rw [Draft.recordName_of_some (by rw [ahead, read]), ahead]
          simp only [Option.map_some, opensRecord_eq, Token.afterAttributes, List.drop_drop]
          generalize Token.attributesLength 0 (tokens.drop stop) = lead at inRange ⊢
          split
          next => exact ih (by omega) (by omega)
          next =>
            rw [stopEq]
            rfl

/-! Type definitions. -/

/-- The tokens from an index on, in front of another one. -/
def between (tokens : List Token) (first stop : Nat) : List Token :=
  (tokens.take stop).drop first

theorem between_of_lt {first stop : Nat} {token : Token} (here : tokens[first]? = some token)
    (before : first < stop) : between tokens first stop = token :: between tokens (first + 1) stop := by
  rw [between, drop_of_some (by rw [List.getElem?_take_of_lt before, here]), between]

theorem between_succ {first stop : Nat} {token : Token} (here : tokens[stop]? = some token)
    (notBehind : first ≤ stop) : between tokens first (stop + 1) = between tokens first stop ++ [token] := by
  have inRange := lt_of_some here
  rw [between, between, List.take_add_one, here, Option.toList_some, List.drop_append_of_le_length]
  rw [List.length_take]
  omega

theorem between_of_le {first stop : Nat} (behind : stop ≤ first) : between tokens first stop = [] :=
  List.drop_eq_nil_iff.mpr ((List.length_take_le stop tokens).trans behind)

/-- Behind the keyword of a type definition are the tokens that begin behind it. -/
theorem takeWhile_behind (ordered : (tokens.map Token.start).Pairwise (· < ·)) {keyword semicolon : Nat}
    (before : keyword < semicolon) (inRange : semicolon ≤ tokens.length) :
    (behind tokens semicolon).takeWhile (fun token => offsetAt tokens keyword < token.start) =
      (between tokens (keyword + 1) semicolon).reverse := by
  rw [List.pairwise_map, List.pairwise_iff_getElem] at ordered
  have here : tokens[keyword]? = some tokens[keyword] := List.getElem?_eq_getElem (by omega)
  have offset : offsetAt tokens keyword = tokens[keyword].start := by
    rw [offsetAt, here]
    rfl
  have parts : behind tokens semicolon =
      (between tokens (keyword + 1) semicolon).reverse ++ tokens[keyword] :: behind tokens keyword := by
    rw [← behind_succ here, behind, behind, ← List.reverse_append, between]
    congr 1
    have size : tokens.take (keyword + 1) = (tokens.take semicolon).take (keyword + 1) := by
      rw [List.take_take, Nat.min_eq_left before]
    rw [size, List.take_append_drop]
  have later : ∀ token ∈ (between tokens (keyword + 1) semicolon).reverse,
      decide (offsetAt tokens keyword < token.start) = true := by
    intro token member
    obtain ⟨place, inside, rfl⟩ := List.mem_iff_getElem.mp (List.mem_reverse.mp member)
    simp only [between, List.length_drop, List.length_take] at inside
    simp only [between, List.getElem_drop, List.getElem_take, offset]
    exact decide_eq_true (ordered keyword _ (by omega) (by omega) (by omega))
  rw [parts, List.takeWhile_append_of_pos later, List.takeWhile_cons, if_neg (by simp [offset]),
    List.append_nil]

theorem pointerName?_of_short {window : List Token} (short : window.length ≤ 3) :
    Draft.pointerName? window = none := by
  match window, short with
  | [], _ | [_], _ | [_, _], _ | [_, _, _], _ => rfl

theorem pointerName_eq (index : Nat) {count stop : Nat} (inRange : stop ≤ tokens.length)
    (countEq : count = stop - 3 - index) : ∃ found, pointerName tokens count index = .ok found ∧
      found.map (tokens[·]?) = (Draft.pointerName? (between tokens index stop)).map some := by
  induction count generalizing index with
  | zero =>
      refine ⟨none, rfl, ?_⟩
      rw [pointerName?_of_short]
      · rfl
      · rw [between, List.length_drop, List.length_take]
        omega
  | succ count ih =>
      have first : tokens[index]? = some tokens[index] := List.getElem?_eq_getElem (by omega)
      have second : tokens[index + 1]? = some tokens[index + 1] := List.getElem?_eq_getElem (by omega)
      have name : tokens[index + 2]? = some tokens[index + 2] := List.getElem?_eq_getElem (by omega)
      have last : tokens[index + 3]? = some tokens[index + 3] := List.getElem?_eq_getElem (by omega)
      obtain ⟨found, read, same⟩ := @ih (index + 1) (by omega)
      have behindFirst : between tokens (index + 1) stop = tokens[index + 1] :: tokens[index + 2] ::
          tokens[index + 3] :: between tokens (index + 4) stop := by
        rw [between_of_lt second (by omega), between_of_lt name (by omega), between_of_lt last (by omega)]
      rw [pointerName, fetch_of_some first, fetch_of_some second, fetch_of_some name, fetch_of_some last,
        between_of_lt first (by omega), behindFirst, Draft.pointerName?]
      rw [behindFirst] at same
      simp only [Checked.ok_bind]
      split
      next => exact ⟨some (index + 2), rfl, congrArg some name⟩
      next => exact ⟨found, read, same⟩

theorem outerName_eq (first depth : Nat) {index : Nat} (inRange : index ≤ tokens.length) :
    ∃ found, outerName tokens first depth index = .ok found ∧
      found.map (tokens[·]?) = (Draft.outerName? depth (between tokens first index).reverse).map some := by
  induction index generalizing depth with
  | zero =>
      rw [between_of_le (Nat.zero_le _)]
      exact ⟨none, rfl, rfl⟩
  | succ index ih =>
      rw [outerName]
      by_cases ended : index < first
      · rw [if_pos ended, between_of_le ended]
        exact ⟨none, rfl, rfl⟩
      · have here : tokens[index]? = some tokens[index] := List.getElem?_eq_getElem inRange
        rw [if_neg ended, fetch_of_some here, Checked.ok_bind, between_succ here (by omega),
          List.reverse_append, List.reverse_singleton, List.singleton_append, Draft.outerName?]
        split
        next => exact ih _ (by omega)
        next =>
          split
          next => exact ih _ (by omega)
          next =>
            split
            next => exact ⟨some index, rfl, congrArg some here⟩
            next => exact ih _ (by omega)

theorem typedefName_eq (keyword : Nat) {semicolon : Nat} (inRange : semicolon ≤ tokens.length) :
    ∃ found, typedefName tokens keyword semicolon = .ok found ∧ found.map (tokens[·]?) =
      (Draft.typedefName? (between tokens (keyword + 1) semicolon).reverse).map some := by
  obtain ⟨pointer?, readPointer, samePointer⟩ := pointerName_eq (keyword + 1) inRange rfl
  rw [typedefName, readPointer, Checked.ok_bind, Draft.typedefName?, List.reverse_reverse]
  cases pointer? with
  | none =>
      have none : Draft.pointerName? (between tokens (keyword + 1) semicolon) = none :=
        Option.map_eq_none_iff.mp samePointer.symm
      rw [none]
      exact outerName_eq _ _ inRange
  | some index =>
      cases found : Draft.pointerName? (between tokens (keyword + 1) semicolon) with
      | none =>
          rw [found] at samePointer
          cases samePointer
      | some name =>
          rw [found] at samePointer
          exact ⟨some index, rfl, samePointer⟩

theorem finishTypedef_eq {keyword semicolon : Nat} (inRange : semicolon ≤ tokens.length) (draft : Draft) :
    finishTypedef tokens draft keyword semicolon =
      .ok (draft.finishTypedef (between tokens (keyword + 1) semicolon).reverse) := by
  obtain ⟨found, read, same⟩ := typedefName_eq keyword inRange
  rw [finishTypedef, read, Checked.ok_bind, Draft.finishTypedef]
  cases name : Draft.typedefName? (between tokens (keyword + 1) semicolon).reverse with
  | none =>
      rw [name] at same
      rw [Option.map_eq_none_iff.mp same]
      rfl
  | some token =>
      rw [name] at same
      obtain ⟨index, rfl, here⟩ := Option.map_eq_some_iff.mp same
      dsimp only
      rw [fetch_of_some here]
      rfl

end Cursor

end Requalify
