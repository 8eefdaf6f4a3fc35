import Requalify.Proofs.Outline.Unfolded
import Requalify.Proofs.Token.Behind
import Requalify.Outline.Reading

/-!
Names and heads in two texts that differ in some stretches only. A name never reaches into a stretch that
differs, so it is the same in both texts; and so is the name of a record, unless reading it takes tokens
behind such a stretch.
-/

namespace Requalify

structure NameToken.Alike (same : Nat → Nat → Prop) (left right : NameToken) : Prop where
  text : right.text = left.text
  start : same left.span.start right.span.start

theorem Token.Alike.name {same : Nat → Nat → Prop} {left right : Token} (alike : left.Alike same right) :
    left.name.Alike same right.name :=
  ⟨text_of_lexeme alike.lexeme, alike.start⟩

namespace NameChain

structure Alike (same : Nat → Nat → Prop) (left right : NameChain) : Prop where
  leading : Option.Rel (fun span span' : Span => same span.start span'.start) left.leading right.leading
  qualifiers : List.Forall₂ (fun pair pair' : NameToken × Span => pair.1.Alike same pair'.1)
    left.qualifiers right.qualifiers
  last : left.last.Alike same right.last

namespace Alike

variable {same : Nat → Nat → Prop} {left right : NameChain} (alike : left.Alike same right)

include alike

theorem isSome_leading : right.leading.isSome = left.leading.isSome := by
  have leads := alike.leading
  generalize left.leading = leading at leads ⊢
  generalize right.leading = leading' at leads ⊢
  cases leads <;> rfl

theorem path : right.path = left.path := by
  have texts := map_eq_of_forall₂ alike.qualifiers (f := (·.1.text)) (g := (·.1.text))
    fun _ _ pair => pair.text
  rw [NamespacePath.ext_iff, segments_path, segments_path, texts, alike.last.text]

theorem written : right.written = left.written := by
  rw [NameChain.written, NameChain.written, alike.isSome_leading, alike.path]

theorem size : right.size = left.size := by
  rw [NameChain.size, NameChain.size, alike.isSome_leading, alike.qualifiers.length_eq]

theorem isSingle : right.isSingle = left.isSingle := by
  have empty : right.qualifiers.isEmpty = left.qualifiers.isEmpty := by
    have pairs := alike.qualifiers
    generalize left.qualifiers = qualifiers at pairs ⊢
    generalize right.qualifiers = qualifiers' at pairs ⊢
    cases pairs <;> rfl
  rw [NameChain.isSingle, NameChain.isSingle, ← Option.not_isSome, ← Option.not_isSome,
    alike.isSome_leading, empty]

theorem start : same left.start right.start := by
  obtain ⟨leading, qualifiers, last⟩ := left
  obtain ⟨leading', qualifiers', last'⟩ := right
  obtain ⟨leadingAlike, qualifiersAlike, lastAlike⟩ := alike
  cases leadingAlike with
  | some here => exact here
  | none =>
      cases qualifiersAlike with
      | nil => exact lastAlike.start
      | cons first => exact first.start

end Alike

end NameChain

namespace Token.Ahead

variable {same : Nat → Nat → Prop} {count : Nat} {left right : List Token}

theorem readFrom {leading leading' : Option Span}
    (leads : Option.Rel (fun span span' : Span => same span.start span'.start) leading leading')
    {passed passed' : List (NameToken × Span)}
    (passes : List.Forall₂ (fun pair pair' : NameToken × Span => pair.1.Alike same pair'.1) passed passed')
    {name name' : Token} (alike : name.Alike same name') (ahead : Ahead same count left right) :
    (NameChain.readFrom leading passed name left).Alike same
        (NameChain.readFrom leading' passed' name' right) ∧
      (NameChain.readFrom leading passed name left).size ≤
        (if leading.isSome then 1 else 0) + 2 * passed.length + 1 + count := by
  have stop : NameChain.Alike same ⟨leading, passed.reverse, name.name⟩
        ⟨leading', passed'.reverse, name'.name⟩ ∧
      NameChain.size ⟨leading, passed.reverse, name.name⟩ ≤
        (if leading.isSome then 1 else 0) + 2 * passed.length + 1 + count := by
    refine ⟨⟨leads, List.rel_reverse passes, alike.name⟩, ?_⟩
    simp [NameChain.size]
  induction sizeEq : left.length using Nat.strongRecOn
    generalizing count left right passed passed' name name' with
  | ind size ih =>
      rcases ahead.cases_head with ⟨rfl, rfl, -⟩ | ⟨wall, rest, wall', rest', rfl, rfl, isWall, lexeme, -⟩ |
        ⟨separator, tail, separator', tail', more, rfl, rfl, alike', others, rfl⟩
      · exact stop
      · have notScope := not_isScope_of_isWall isWall
        have notScope' := (isScope_of_lexeme lexeme).trans notScope
        cases rest <;> cases rest' <;>
          simpa [NameChain.readFrom, notScope, notScope'] using stop
      · rcases others.cases_head with ⟨rfl, rfl, -⟩ |
          ⟨wall, rest, wall', rest', rfl, rfl, isWall, lexeme, -⟩ |
          ⟨next, rest, next', rest', more, rfl, rfl, alikeNext, inner, rfl⟩
        · exact stop
        · have notName := not_isIdentifier_of_isWall isWall
          simpa [NameChain.readFrom, isIdentifier_of_lexeme lexeme, notName] using stop
        · rw [NameChain.readFrom, NameChain.readFrom, isScope_of_lexeme alike'.lexeme,
            isIdentifier_of_lexeme alikeNext.lexeme]
          split
          next =>
            have passesMore := List.Forall₂.cons
              (a := (name.name, separator.span)) (b := (name'.name, separator'.span)) alike.name passes
            obtain ⟨chainAlike, bound⟩ := ih rest.length (by simp at sizeEq; omega) passesMore alikeNext inner
              (by
                refine ⟨⟨leads, List.rel_reverse passesMore, alikeNext.name⟩, ?_⟩
                simp [NameChain.size]) rfl
            refine ⟨chainAlike, ?_⟩
            rw [List.length_cons] at bound
            omega
          next => exact stop

/-- A name ahead is the same name in both texts. -/
theorem read? (ahead : Ahead same count left right) :
    Option.Rel (fun chain chain' => NameChain.Alike same chain chain' ∧ chain.size ≤ count)
      (NameChain.read? left) (NameChain.read? right) := by
  rcases ahead.cases_head with ⟨rfl, rfl, -⟩ | ⟨wall, rest, wall', rest', rfl, rfl, isWall, lexeme, -⟩ |
    ⟨first, tail, first', tail', more, rfl, rfl, alike, others, rfl⟩
  · exact .none
  · have notName := not_isIdentifier_of_isWall isWall
    have notScope := not_isScope_of_isWall isWall
    have notName' := (isIdentifier_of_lexeme lexeme).trans notName
    have notScope' := (isScope_of_lexeme lexeme).trans notScope
    cases rest <;> cases rest' <;>
      simp [NameChain.read?, notName, notName', notScope, notScope']
  · cases isName : first.isIdentifier with
    | true =>
        have isName' := (isIdentifier_of_lexeme alike.lexeme).trans isName
        have leads : Option.Rel (fun span span' : Span => same span.start span'.start) none none := .none
        obtain ⟨chainAlike, bound⟩ := others.readFrom leads .nil alike
        simp only [NameChain.read?, isName, isName', if_true]
        exact .some ⟨chainAlike, by simpa [Nat.add_comm] using bound⟩
    | false =>
        have isName' := (isIdentifier_of_lexeme alike.lexeme).trans isName
        rcases others.cases_head with ⟨rfl, rfl, -⟩ |
          ⟨wall, rest, wall', rest', rfl, rfl, isWall, lexeme, -⟩ |
          ⟨name, rest, name', rest', more, rfl, rfl, alikeName, inner, rfl⟩
        · simp [NameChain.read?, isName, isName']
        · have notName := not_isIdentifier_of_isWall isWall
          simp [NameChain.read?, isName, isName', isIdentifier_of_lexeme lexeme, notName]
        · simp only [NameChain.read?, isName, isName', isScope_of_lexeme alike.lexeme,
            isIdentifier_of_lexeme alikeName.lexeme, Bool.false_eq_true, if_false]
          split
          next =>
            have leads : Option.Rel (fun span span' : Span => same span.start span'.start)
                (some first.span) (some first'.span) := .some alike.start
            obtain ⟨chainAlike, bound⟩ := inner.readFrom leads .nil alikeName
            refine .some ⟨chainAlike, ?_⟩
            simp at bound
            omega
          next => exact .none

end Token.Ahead

namespace Draft

/-- How a namespace definition goes on behind one of its names. -/
def namesBehind (outerInline : Bool) (names : List (String × Bool)) (count : Nat) (rest : List Token) :
    List (String × Bool) × Nat :=
  if rest.head?.any Token.isScope then definitionNames outerInline names (count + 1) (rest.drop 1)
  else (names.reverse, count)

section DefinitionNames

variable (outerInline : Bool) (names : List (String × Bool)) (count : Nat)

theorem definitionNames_of_other {tokens : List Token}
    (notInline : Token.startsWithKeyword tokens "inline" = false)
    (notName : Token.startsWithIdentifier tokens = false) :
    definitionNames outerInline names count tokens = (names.reverse, count) := by
  cases tokens with
  | nil => rw [definitionNames]
  | cons token rest =>
      have notInline : token.isKeyword "inline" = false := notInline
      have notName : token.isIdentifier = false := notName
      rw [definitionNames.eq_def]
      simp [notInline, notName]

theorem definitionNames_of_name {name : Token} {rest : List Token} (isName : name.isIdentifier = true) :
    definitionNames outerInline names count (name :: rest) =
      namesBehind outerInline ((name.text, names.isEmpty && outerInline) :: names) (count + 1) rest := by
  have notInline : name.isKeyword "inline" = false := by
    simp [Token.isKeyword, Token.kind_of_isIdentifier isName]
  cases rest with
  | nil => simp [definitionNames, namesBehind, notInline, isName]
  | cons separator more => simp [definitionNames, namesBehind, notInline, isName]

theorem definitionNames_of_inline {keyword : Token} {rest : List Token}
    (isInline : keyword.isKeyword "inline" = true)
    (notName : Token.startsWithIdentifier rest = false) :
    definitionNames outerInline names count (keyword :: rest) = (names.reverse, count + 1) := by
  cases rest with
  | nil => simp [definitionNames, isInline]
  | cons token rest =>
      have notName : token.isIdentifier = false := notName
      simp [definitionNames, isInline, notName]

theorem definitionNames_of_inlineName {keyword name : Token} {rest : List Token}
    (isInline : keyword.isKeyword "inline" = true) (isName : name.isIdentifier = true) :
    definitionNames outerInline names count (keyword :: name :: rest) =
      namesBehind outerInline ((name.text, true) :: names) (count + 2) rest := by
  cases rest with
  | nil => simp [definitionNames, namesBehind, isInline, isName]
  | cons separator more => simp [definitionNames, namesBehind, isInline, isName]

end DefinitionNames

end Draft

namespace Token.Ahead

variable {same : Nat → Nat → Prop} {count : Nat} {left right : List Token}

theorem head?_isIdentifier (ahead : Ahead same count left right)
    (isName : startsWithIdentifier left = true) :
    ∃ name rest name' rest' more, left = name :: rest ∧ right = name' :: rest' ∧
      name.isIdentifier = true ∧ Alike same name name' ∧ Ahead same more rest rest' ∧
        count = more + 1 := by
  rcases ahead.cases_head with ⟨rfl, rfl, -⟩ | ⟨wall, rest, wall', rest', rfl, rfl, isWall, -⟩ |
    ⟨name, rest, name', rest', more, rfl, rfl, alike, others, rfl⟩
  · simp [startsWithIdentifier] at isName
  · simp [startsWithIdentifier, not_isIdentifier_of_isWall isWall] at isName
  · exact ⟨name, rest, name', rest', more, rfl, rfl, isName, alike, others, rfl⟩

/-- The names of a namespace definition ahead are the same in both texts. -/
theorem definitionNames (outerInline : Bool) (names : List (String × Bool)) (passed : Nat)
    (ahead : Ahead same count left right) :
    Draft.definitionNames outerInline names passed right =
        Draft.definitionNames outerInline names passed left ∧
      (Draft.definitionNames outerInline names passed left).2 ≤ passed + count := by
  induction sizeEq : left.length using Nat.strongRecOn generalizing names passed count left right with
  | ind size ih =>
      have behind (names : List (String × Bool)) (passed : Nat) {count : Nat} {rest rest' : List Token}
          (ahead : Ahead same count rest rest') (shorter : rest.length < size) :
          Draft.namesBehind outerInline names passed rest' =
              Draft.namesBehind outerInline names passed rest ∧
            (Draft.namesBehind outerInline names passed rest).2 ≤ passed + count := by
        have sameTest : rest'.head?.any isScope = rest.head?.any isScope :=
          any_of_head? ahead.head?_lexeme fun _ _ => isScope_of_lexeme
        rw [Draft.namesBehind, Draft.namesBehind, sameTest]
        split
        next isScope =>
          rcases ahead.cases_head with ⟨rfl, -⟩ | ⟨wall, more, -, -, rfl, -, isWall, -⟩ |
            ⟨separator, more, separator', more', left, rfl, rfl, -, others, rfl⟩
          · simp at isScope
          · simp [not_isScope_of_isWall isWall] at isScope
          · obtain ⟨namesEq, bound⟩ := ih more.length (by simp at shorter; omega) names (passed + 1) others rfl
            exact ⟨namesEq, Nat.le_trans bound (by omega)⟩
        next => exact ⟨rfl, Nat.le_add_right _ _⟩
      have sameInline := startsWithKeyword_of_head? ahead.head?_lexeme "inline"
      have sameName := startsWithIdentifier_of_head? ahead.head?_lexeme
      cases isName : startsWithIdentifier left with
      | true =>
          obtain ⟨name, rest, name', rest', more, rfl, rfl, isName, alike, others, rfl⟩ :=
            ahead.head?_isIdentifier isName
          rw [Draft.definitionNames_of_name _ _ _ isName,
            Draft.definitionNames_of_name _ _ _ ((isIdentifier_of_lexeme alike.lexeme).trans isName),
            text_of_lexeme alike.lexeme]
          obtain ⟨namesEq, bound⟩ := behind ((name.text, names.isEmpty && outerInline) :: names)
            (passed + 1) others (by simp [← sizeEq])
          exact ⟨namesEq, Nat.le_trans bound (by omega)⟩
      | false =>
          cases isInline : startsWithKeyword left "inline" with
          | false =>
              rw [Draft.definitionNames_of_other _ _ _ isInline isName,
                Draft.definitionNames_of_other _ _ _ (sameInline.trans isInline) (sameName.trans isName)]
              exact ⟨rfl, Nat.le_add_right _ _⟩
          | true =>
              rcases ahead.cases_head with ⟨rfl, -⟩ | ⟨wall, rest, -, -, rfl, -, isWall, -⟩ |
                ⟨keyword, rest, keyword', rest', more, rfl, rfl, alike, others, rfl⟩
              · simp [startsWithKeyword] at isInline
              · have notInline := @not_isKeyword_of_isWall wall isWall "inline" (by decide)
                simp [startsWithKeyword, notInline] at isInline
              have isInline : keyword.isKeyword "inline" = true := isInline
              have isInline' := (isKeyword_of_lexeme alike.lexeme "inline").trans isInline
              have sameNext := startsWithIdentifier_of_head? others.head?_lexeme
              cases isNext : startsWithIdentifier rest with
              | false =>
                  rw [Draft.definitionNames_of_inline _ _ _ isInline isNext,
                    Draft.definitionNames_of_inline _ _ _ isInline' (sameNext.trans isNext)]
                  exact ⟨rfl, by omega⟩
              | true =>
                  obtain ⟨name, after, name', after', more, rfl, rfl, isName, alikeName, inner, rfl⟩ :=
                    others.head?_isIdentifier isNext
                  have isName' := (isIdentifier_of_lexeme alikeName.lexeme).trans isName
                  rw [Draft.definitionNames_of_inlineName _ _ _ isInline isName,
                    Draft.definitionNames_of_inlineName _ _ _ isInline' isName',
                    text_of_lexeme alikeName.lexeme]
                  obtain ⟨namesEq, bound⟩ := behind ((name.text, true) :: names) (passed + 2) inner
                    (by rw [← sizeEq, List.length_cons, List.length_cons]; omega)
                  exact ⟨namesEq, Nat.le_trans bound (by omega)⟩

/-! Heads of records. Attributes in front of a name may end behind a difference. -/

theorem opensRecord (ahead : Ahead same count left right) :
    Draft.opensRecord right = Draft.opensRecord left := by
  simp only [Draft.opensRecord, startsWith_of_head? ahead.head?_lexeme,
    startsWithKeyword_of_head? ahead.head?_lexeme]

theorem afterAttributes (ahead : Ahead same count left right) :
    ∃ more, Ahead same more (Token.afterAttributes left) (Token.afterAttributes right) :=
  ahead.attributesLength.ahead ahead

end Token.Ahead

namespace Draft

theorem recordName_of_none {count : Nat} {name : NameChain} {tokens : List Token}
    (none : NameChain.read? (Token.afterAttributes tokens) = none) :
    recordName count name tokens = (name, count) := by
  rw [Token.afterAttributes] at none
  rw [recordName]
  split
  next => rfl
  next found => simp [none] at found

theorem recordName_of_some {count : Nat} {name candidate : NameChain} {tokens : List Token}
    (found : NameChain.read? (Token.afterAttributes tokens) = some candidate) :
    recordName count name tokens =
      if opensRecord (Token.afterAttributes ((Token.afterAttributes tokens).drop candidate.size)) then
        recordName (count + name.size + Token.attributesLength 0 tokens) candidate
          ((Token.afterAttributes tokens).drop candidate.size)
      else (name, count) := by
  rw [Token.afterAttributes] at found
  rw [recordName]
  split
  next none => simp [none] at found
  next other found' =>
    obtain rfl : other = candidate := Option.some.inj (found'.symm.trans found)
    simp only [Token.afterAttributes, List.drop_drop]

theorem recordName_le (count : Nat) (name : NameChain) (tokens : List Token) :
    count + name.size ≤ (recordName count name tokens).2 + (recordName count name tokens).1.size := by
  fun_induction recordName count name tokens with
  | case1 => exact Nat.le_refl _
  | case2 count name tokens lead candidate found after opens ih => omega
  | case3 => exact Nat.le_refl _

end Draft

namespace Token.Ahead

variable {same : Nat → Nat → Prop} {count : Nat} {left right : List Token}

/-- The name of a record is the same in both texts, if it stands in front of the first difference. -/
theorem recordName {name name' : NameChain} (alike : name.Alike same name') {passed total : Nat}
    (totalEq : passed + name.size + count = total) (ahead : Ahead same count left right)
    (short : (Draft.recordName passed name left).2 + (Draft.recordName passed name left).1.size ≤ total) :
    (Draft.recordName passed name left).1.Alike same (Draft.recordName passed name' right).1 ∧
      (Draft.recordName passed name' right).2 = (Draft.recordName passed name left).2 := by
  induction sizeEq : left.length using Nat.strongRecOn generalizing name name' passed count left right with
  | ind size ih =>
      obtain ⟨more, behind⟩ := ahead.afterAttributes
      have names := behind.read?
      generalize found : NameChain.read? (Token.afterAttributes left) = candidate? at names
      generalize found' : NameChain.read? (Token.afterAttributes right) = candidate'? at names
      cases names with
      | none =>
          rw [Draft.recordName_of_none found, Draft.recordName_of_none found']
          exact ⟨alike, rfl⟩
      | @some candidate candidate' both =>
          obtain ⟨alikeCandidate, inside⟩ := both
          have further := behind.drop inside
          have decides : Draft.opensRecord (Token.afterAttributes
                ((Token.afterAttributes right).drop candidate.size)) =
              Draft.opensRecord (Token.afterAttributes
                ((Token.afterAttributes left).drop candidate.size)) := by
            obtain ⟨_, body⟩ := further.afterAttributes
            exact body.opensRecord
          rw [Draft.recordName_of_some found] at short ⊢
          rw [Draft.recordName_of_some found', alikeCandidate.size, decides]
          split
          next opens =>
            rw [if_pos opens] at short
            have reach := Draft.recordName_le (passed + name.size + Token.attributesLength 0 left) candidate
              ((Token.afterAttributes left).drop candidate.size)
            have positive := candidate.size_pos
            -- The name that is read stands behind the attributes, so these end in front of the difference.
            obtain ⟨leadEq, leadBound⟩ := ahead.attributesLength.resolve_right fun far => by
              have long := far.1
              omega
            have shorter : ((Token.afterAttributes left).drop candidate.size).length < left.length := by
              have nonempty := List.length_pos_iff.mpr (NameChain.ne_nil_of_read? found)
              rw [Token.afterAttributes, List.length_drop] at nonempty
              rw [Token.afterAttributes, List.length_drop, List.length_drop]
              omega
            have inFront : Ahead same (count - Token.attributesLength 0 left)
                (Token.afterAttributes left) (Token.afterAttributes right) := by
              rw [Token.afterAttributes, Token.afterAttributes, leadEq]
              exact ahead.drop leadBound
            have candidateBound : candidate.size ≤ count - Token.attributesLength 0 left := by
              have names := inFront.read?
              rw [found, found'] at names
              cases names with
              | some both => exact both.2
            rw [alike.size, leadEq]
            exact ih _ (sizeEq ▸ shorter) alikeCandidate (by omega) (inFront.drop candidateBound) short rfl
          next => exact ⟨alike, rfl⟩

end Token.Ahead

/-! Type definitions, of which all tokens are the same. -/

namespace Draft

variable {same : Nat → Nat → Prop} {left right : List Token}

theorem pointerName?_alike (alike : List.Forall₂ (Token.Alike same) left right) :
    Option.Rel (Token.Alike same) (pointerName? left) (pointerName? right) := by
  induction alike with
  | nil => exact .none
  | @cons first first' rest rest' here others ih =>
      cases others with
      | nil => exact .none
      | @cons second second' rest rest' alikeSecond others =>
          cases others with
          | nil => exact .none
          | @cons name name' rest rest' alikeName others =>
              cases others with
              | nil => exact .none
              | @cons last last' rest rest' alikeLast others =>
                  rw [pointerName?, pointerName?, Token.isPunctuator_of_lexeme here.lexeme,
                    Token.isPunctuator_of_lexeme alikeSecond.lexeme,
                    Token.isIdentifier_of_lexeme alikeName.lexeme,
                    Token.isPunctuator_of_lexeme alikeLast.lexeme]
                  split
                  next => exact .some alikeName
                  next => exact ih

theorem outerName?_alike (alike : List.Forall₂ (Token.Alike same) left right) (depth : Nat) :
    Option.Rel (Token.Alike same) (outerName? depth left) (outerName? depth right) := by
  induction alike generalizing depth with
  | nil => exact .none
  | cons here others ih =>
      have marks (text : String) := Token.isPunctuator_of_lexeme here.lexeme text
      simp only [outerName?, marks, Token.isIdentifier_of_lexeme here.lexeme]
      split_ifs
      · exact ih _
      · exact ih _
      · exact .some here
      · exact ih _

/-- A type definition introduces the same name in both texts. -/
theorem typedefName?_alike (alike : List.Forall₂ (Token.Alike same) left right) :
    Option.Rel (Token.Alike same) (typedefName? left) (typedefName? right) := by
  have pointers := pointerName?_alike (List.rel_reverse alike)
  rw [typedefName?, typedefName?]
  generalize pointerName? left.reverse = pointer? at pointers ⊢
  generalize pointerName? right.reverse = pointer'? at pointers ⊢
  cases pointers with
  | none => exact outerName?_alike alike 0
  | some here => exact .some here

/-! Parameters of templates. -/

theorem readTemplate_le (depth parens count : Nat) (parked : List (String × Nat)) (before : List Token)
    (token : Token) (rest : List Token) :
    count < (readTemplate depth parens count parked before (token :: rest)).2 := by
  have atLeast (tokens : List Token) (depth parens count : Nat) (parked : List (String × Nat))
      (before : List Token) : count ≤ (readTemplate depth parens count parked before tokens).2 := by
    induction tokens generalizing depth parens count parked before with
    | nil => exact Nat.le_refl _
    | cons token rest ih =>
        simp only [readTemplate]
        split_ifs
        all_goals first
          | exact Nat.le_succ _
          | exact Nat.le_trans (Nat.le_succ _) (ih _ _ _ _ _)
  simp only [readTemplate]
  split_ifs
  all_goals first
    | exact Nat.lt_succ_self _
    | exact atLeast _ _ _ _ _ _

theorem isTemplateParameter_alike {low low' count : Nat} {before before' : List Token}
    (behind : Token.Behind same low low' before before') (ahead : Token.Ahead same count left right) :
    isTemplateParameter before' right = isTemplateParameter before left := by
  simp only [isTemplateParameter, Token.startsWith_of_head? ahead.head?_lexeme,
    Token.startsWithKeyword_of_head? behind.head?_lexeme, behind.endsType]

/-- A template has the same parameters in both texts, if its list ends in front of the difference. -/
theorem readTemplate_alike {low low' count : Nat} {before before' : List Token}
    (behind : Token.Behind same low low' before before') (ahead : Token.Ahead same count left right)
    {parked parked' : List (String × Nat)} (names : parked'.map (·.1) = parked.map (·.1))
    (depth parens passed : Nat)
    (short : (readTemplate depth parens passed parked before left).2 ≤ passed + count) :
    (readTemplate depth parens passed parked' before' right).2 =
        (readTemplate depth parens passed parked before left).2 ∧
      (readTemplate depth parens passed parked' before' right).1.map (·.1) =
        (readTemplate depth parens passed parked before left).1.map (·.1) := by
  induction ahead generalizing before before' parked parked' depth parens passed with
  | done => exact ⟨rfl, names⟩
  | @border _ _ rest _ _ borders others =>
      obtain ⟨wall, wall', back, back', rfl, rfl, -⟩ := borders.head
      have far := readTemplate_le depth parens passed parked before wall (back ++ rest)
      simp only [List.cons_append] at short
      omega
  | @cons token token' rest rest' count alike others ih =>
      have marks (text : String) := Token.isPunctuator_of_lexeme alike.lexeme text
      have further := Token.Behind.cons alike behind
      simp only [readTemplate, marks, Token.isIdentifier_of_lexeme alike.lexeme,
        isTemplateParameter_alike behind others] at short ⊢
      split_ifs at short ⊢
      all_goals first
        | exact ⟨rfl, names⟩
        | exact ih further names _ _ _ (by omega)
        | skip
      have more : ((token'.text, token'.start) :: parked').map (·.1) =
          ((token.text, token.start) :: parked).map (·.1) := by
        simp [Token.text_of_lexeme alike.lexeme, names]
      exact ih further more _ _ _ (by omega)

end Draft

end Requalify
