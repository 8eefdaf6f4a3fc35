import Requalify.Proofs.Outline.Follows

/-!
One step in two texts that differ in some stretches only. If the step in the first text ends in front of the
next difference, the step in the second is as long, and the drafts go on to say the same.
-/

namespace Requalify

namespace Draft

/-- Two steps are as long and give drafts that say the same, if the first ends in front of the next
difference, which is behind `count` tokens. -/
def Agrees (unfolding : Unfolding) (floor : Floor) (depth count : Nat) (old new : Draft × Nat) : Prop :=
  old.2 ≤ count → new.2 = old.2 ∧ Follows unfolding floor depth old.1 new.1

/-- A using-declaration; the tokens follow its keyword. -/
def importName (draft : Draft) (keyword : Token) (tokens : List Token) : Draft × Nat :=
  let lead := if Token.startsWithKeyword tokens "typename" then 1 else 0
  match NameChain.read? (tokens.drop lead) with
  | some target =>
      if target.isSingle then (draft, lead + target.size)
      else (draft.recordUsing .declaration keyword target none, lead + target.size)
  | none => (draft, lead)

/-- A using-directive; the tokens follow its last keyword. -/
def nominate (draft : Draft) (keyword : Token) (tokens : List Token) : Draft × Nat :=
  match NameChain.read? tokens with
  | some target => (draft.recordUsing .directive keyword target none, 1 + target.size)
  | none => (draft, 1)

theorem stepUsing_cons (draft : Draft) (keyword next : Token) (after : List Token) :
    draft.stepUsing keyword (next :: after) =
      if next.isKeyword "namespace" then draft.nominate keyword after
      else if next.isIdentifier && Token.startsWith after "=" then
        (draft.declare next.name .typeAlias, 2)
      else if next.isKeyword "enum" then (draft, 1)
      else draft.importName keyword (next :: after) :=
  rfl

section Steps

variable {unfolding : Unfolding} {floor : Floor} {depth count : Nat} {old new : Draft}
  {before before' rest rest' : List Token} {token token' : Token}
  (follows : old.Follows unfolding floor depth new)
  (behind : Token.Behind unfolding.same floor.low floor.low' before before')
  (alike : token.Alike unfolding.same token')
  (ahead : Token.Ahead unfolding.same count rest rest')

section Name

include behind

theorem followsDependent_alike : followsDependent before' = followsDependent before := by
  rcases Token.cases_of_head? behind.head?_lexeme with
    ⟨rfl, rfl⟩ | ⟨previous, _, previous', _, rfl, rfl, lexeme⟩
  · rfl
  · simp only [followsDependent, Token.isIdentifier_of_lexeme lexeme,
      Token.isPunctuator_of_lexeme lexeme]

include follows alike ahead

theorem stepName_agrees : Agrees unfolding floor depth count (old.stepName before token rest)
    (new.stepName before' token' rest') := by
  have whole := Token.Ahead.cons alike ahead
  rw [stepName, stepName, Token.isScope_of_lexeme alike.lexeme, followsDependent_alike behind]
  by_cases dependent : (token.isScope && followsDependent before) = true
  · rw [if_pos dependent, if_pos dependent, (whole.dependentLength 0).1]
    exact fun _ => ⟨rfl, follows⟩
  · rw [if_neg dependent, if_neg dependent]
    have names := whole.read?
    generalize NameChain.read? (token :: rest) = chain? at names ⊢
    generalize NameChain.read? (token' :: rest') = chain'? at names ⊢
    cases names with
    | none => exact fun _ => ⟨rfl, follows⟩
    | @some chain chain' both =>
        obtain ⟨chainAlike, bound⟩ := both
        intro _
        dsimp only
        rw [chainAlike.size]
        exact ⟨rfl, follows.readName behind (ahead.drop (by omega)) chainAlike⟩

end Name

section Using

include follows alike ahead

theorem importName_agrees : Agrees unfolding floor depth count (old.importName token rest)
    (new.importName token' rest') := by
  have leads : (if Token.startsWithKeyword rest' "typename" then 1 else 0) =
      (if Token.startsWithKeyword rest "typename" then 1 else 0) ∧
        (if Token.startsWithKeyword rest "typename" then 1 else 0) ≤ count :=
    ahead.leadLength (fun _ _ alike => Token.isKeyword_of_lexeme alike _)
      fun token isWall => Token.not_isKeyword_of_isWall isWall (by decide)
  obtain ⟨leadEq, leadBound⟩ := leads
  have names := (ahead.drop leadBound).read?
  simp only [importName, leadEq]
  generalize (if Token.startsWithKeyword rest "typename" then 1 else 0) = lead at names ⊢
  generalize NameChain.read? (rest.drop lead) = target? at names ⊢
  generalize NameChain.read? (rest'.drop lead) = target'? at names ⊢
  cases names with
  | none => exact fun _ => ⟨rfl, follows⟩
  | some both =>
      dsimp only
      rw [both.1.isSingle, both.1.size]
      split
      next => exact fun _ => ⟨rfl, follows⟩
      next => exact fun _ => ⟨rfl, follows.recordUsing alike both.1 _ _⟩

theorem nominate_agrees : Agrees unfolding floor depth (count + 1) (old.nominate token rest)
    (new.nominate token' rest') := by
  have names := ahead.read?
  rw [nominate, nominate]
  generalize NameChain.read? rest = target? at names ⊢
  generalize NameChain.read? rest' = target'? at names ⊢
  cases names with
  | none => exact fun _ => ⟨rfl, follows⟩
  | some both =>
      dsimp only
      rw [both.1.size]
      exact fun _ => ⟨rfl, follows.recordUsing alike both.1 _ _⟩

theorem stepUsing_agrees : Agrees unfolding floor depth count (old.stepUsing token rest)
    (new.stepUsing token' rest') := by
  rcases ahead.cases_head with ⟨rfl, rfl, -⟩ | ⟨wall, tail, wall', tail', rfl, rfl, isWall, lexeme, rfl⟩ |
    ⟨next, after, next', after', more, rfl, rfl, alikeNext, others, rfl⟩
  · exact fun _ => ⟨rfl, follows⟩
  · have notName := Token.not_isIdentifier_of_isWall isWall
    have notEnum := @Token.not_isKeyword_of_isWall wall isWall "enum" (by decide)
    simp only [stepUsing_cons, Token.isKeyword_of_lexeme lexeme, Token.isIdentifier_of_lexeme lexeme,
      notName, notEnum, Bool.false_and, Bool.false_eq_true, if_false]
    split
    next =>
      intro short
      rw [nominate] at short
      split at short <;> simp at short
    next => exact importName_agrees follows alike ahead
  · simp only [stepUsing_cons, Token.isKeyword_of_lexeme alikeNext.lexeme,
      Token.isIdentifier_of_lexeme alikeNext.lexeme, Token.startsWith_of_head? others.head?_lexeme]
    split_ifs
    · exact nominate_agrees follows alike others
    · exact fun _ => ⟨rfl, follows.declare alikeNext.name .typeAlias⟩
    · exact fun _ => ⟨rfl, follows⟩
    · exact importName_agrees follows alike ahead

end Using

include follows behind alike ahead in
theorem stepTemplate_agrees : Agrees unfolding floor depth count (old.stepTemplate before token rest)
    (new.stepTemplate before' token' rest') := by
  rw [stepTemplate, stepTemplate, Token.startsWith_of_head? ahead.head?_lexeme]
  split
  next =>
    intro short
    obtain ⟨countEq, names⟩ := readTemplate_alike (.cons alike behind) ahead follows.parked 0 0 0
      (by simpa using short)
    exact ⟨countEq, follows.setParked names⟩
  next => exact fun _ => ⟨rfl, follows⟩

/-- The body of a record; the tokens follow its name. -/
def openRecord (draft : Draft) (isFriend : Bool) (name : NameChain) (stop : Nat) (tokens : List Token) :
    Draft × Nat :=
  let lead := Token.attributesLength 0 tokens
  let forward := Token.startsWith (tokens.drop lead) ";"
  if isFriend || !(forward || opensRecord (tokens.drop lead)) then (draft.mention name .typeKeyword, stop)
  else
    let draft := if name.isSingle then draft.declare name.last .record else draft
    (if forward then draft else { draft with opening := some .record }, stop + lead)

theorem stepRecord_of_none {draft : Draft} {before rest : List Token} {lead : Nat}
    (leadEq : Token.attributesLength 0 rest = lead) (none : NameChain.read? (rest.drop lead) = none) :
    draft.stepRecord before rest =
      (if Token.startsWith (rest.drop lead) "\x7b" || Token.startsWith (rest.drop lead) ":" then
        { draft with opening := some .record }
      else draft, lead) := by
  rw [stepRecord]
  dsimp only
  rw [leadEq, none]
  dsimp only
  split_ifs <;> rfl

theorem stepRecord_of_some {draft : Draft} {before rest : List Token} {lead : Nat} {first : NameChain}
    (leadEq : Token.attributesLength 0 rest = lead) (found : NameChain.read? (rest.drop lead) = some first) :
    draft.stepRecord before rest =
      let (name, count) := recordName lead first ((rest.drop lead).drop first.size)
      draft.openRecord (Token.startsWithKeyword before "friend") name (count + name.size)
        (rest.drop (count + name.size)) := by
  rw [stepRecord]
  dsimp only
  rw [leadEq, found]
  dsimp only
  rw [List.drop_drop]
  generalize recordName _ _ _ = named
  obtain ⟨name, count⟩ := named
  simp only [openRecord, Token.attributesLength_add (count + name.size), List.drop_drop]

include follows ahead in
theorem openRecord_agrees {name name' : NameChain} (alikeName : name.Alike unfolding.same name')
    (isFriend : Bool) (stop total : Nat) (totalEq : stop + count = total) :
    Agrees unfolding floor depth total (old.openRecord isFriend name stop rest)
      (new.openRecord isFriend name' stop rest') := by
  have tracks := ahead.attributesLength
  obtain ⟨more, body⟩ := tracks.ahead ahead
  have heads := body.head?_lexeme
  simp only [openRecord, Token.startsWith_of_head? heads, body.opensRecord]
  generalize Token.startsWith (rest.drop _) ";" = forward
  split
  next => exact fun _ => ⟨rfl, follows.mention alikeName _⟩
  next =>
    intro short
    obtain ⟨leadEq, -⟩ := tracks.resolve_right fun far => by
      have long := far.1
      simp only at short
      omega
    refine ⟨by simp only [leadEq], ?_⟩
    have declared := follows.declareSingle alikeName .record
    dsimp only
    split
    next => exact declared
    next => exact declared.setOpening rfl

theorem le_openRecord (draft : Draft) (isFriend : Bool) (name : NameChain) (stop : Nat)
    (tokens : List Token) : stop ≤ (draft.openRecord isFriend name stop tokens).2 := by
  rw [openRecord]
  split
  next => exact Nat.le_refl _
  next => exact Nat.le_add_right _ _

include follows ahead in
theorem stepRecord_agrees (heads : before'.head?.map Token.lexeme = before.head?.map Token.lexeme) :
    Agrees unfolding floor depth count (old.stepRecord before rest) (new.stepRecord before' rest') := by
  have tracks := ahead.attributesLength
  obtain ⟨more, behindLead⟩ := tracks.ahead ahead
  have names := behindLead.read?
  generalize leadEq : Token.attributesLength 0 rest = lead at tracks behindLead names
  generalize leadEq' : Token.attributesLength 0 rest' = lead' at tracks behindLead names
  generalize found : NameChain.read? (rest.drop lead) = first? at names
  generalize found' : NameChain.read? (rest'.drop lead') = first'? at names
  cases names with
  | none =>
      rw [stepRecord_of_none leadEq found, stepRecord_of_none leadEq' found',
        Token.startsWith_of_head? behindLead.head?_lexeme,
        Token.startsWith_of_head? behindLead.head?_lexeme]
      intro short
      obtain ⟨rfl, -⟩ := tracks.resolve_right fun far => absurd short (Nat.not_le_of_lt far.1)
      refine ⟨rfl, ?_⟩
      dsimp only
      split
      next => exact follows.setOpening rfl
      next => exact follows
  | @some first first' both =>
      have reach := recordName_le lead first ((rest.drop lead).drop first.size)
      have positive := first.size_pos
      rw [stepRecord_of_some leadEq found, stepRecord_of_some leadEq' found',
        Token.startsWithKeyword_of_head? heads]
      intro short
      have stops := Nat.le_trans (le_openRecord _ _ _ _ _) short
      -- The name stands behind the attributes, so these end in front of the difference.
      obtain ⟨rfl, leadBound⟩ := tracks.resolve_right fun far => by
        have long := far.1
        omega
      have inFront := ahead.drop leadBound
      have firstBound : first.size ≤ count - lead' := by
        have names := inFront.read?
        rw [found, found'] at names
        cases names with
        | some both => exact both.2
      have total : lead' + first.size + (count - lead' - first.size) = count := by omega
      obtain ⟨alikeName, countEq⟩ := (inFront.drop firstBound).recordName both.1 total stops
      dsimp only
      rw [both.1.size, countEq, alikeName.size]
      exact openRecord_agrees follows (ahead.drop stops) alikeName _ _ count (Nat.add_sub_of_le stops) short

/-- An enumeration behind its attributes; the tokens follow its name. -/
def openEnumeration (draft : Draft) (closed : Bool) (name? : Option NameChain) (stop : Nat)
    (after : List Token) : Draft × Nat :=
  let body := Token.startsWith after "\x7b"
  let underlying := Token.startsWith after ":"
  if body || underlying || Token.startsWith after ";" then
    let draft := match name? with
      | some name => if name.isSingle then draft.declare name.last .enumeration else draft
      | none => draft
    let draft :=
      if body || underlying then { draft with opening := some (.enumeration closed) } else draft
    (draft, if underlying then stop + 1 else stop)
  else
    match name? with
    | some name => (draft.mention name .typeKeyword, stop)
    | none => (draft, stop)

theorem stepEnumeration_eq {draft : Draft} {rest : List Token} {closed : Bool} {lead : Nat}
    {name? : Option NameChain}
    (isClosed : (Token.startsWithKeyword rest "class" || Token.startsWithKeyword rest "struct") = closed)
    (leadEq : (if closed then 1 else 0) +
      Token.attributesLength 0 (rest.drop (if closed then 1 else 0)) = lead)
    (found : NameChain.read? (rest.drop lead) = name?) :
    draft.stepEnumeration rest =
      draft.openEnumeration closed name? (lead + (name?.map NameChain.size).getD 0)
        (rest.drop (lead + (name?.map NameChain.size).getD 0)) := by
  rw [stepEnumeration]
  dsimp only
  rw [isClosed, Token.attributesLength_add, leadEq, found]
  rfl

theorem le_openEnumeration (draft : Draft) (closed : Bool) (name? : Option NameChain) (stop : Nat)
    (after : List Token) : stop ≤ (draft.openEnumeration closed name? stop after).2 := by
  unfold openEnumeration
  dsimp only
  split
  next =>
    dsimp only
    split
    next => exact Nat.le_succ _
    next => exact Nat.le_refl _
  next => split <;> exact Nat.le_refl _

include follows in
theorem openEnumeration_agrees {after after' : List Token} {more : Nat}
    (further : Token.Ahead unfolding.same more after after') {name? name'? : Option NameChain}
    (names : Option.Rel (NameChain.Alike unfolding.same) name? name'?) (closed : Bool) (stop : Nat) :
    Agrees unfolding floor depth count (old.openEnumeration closed name? stop after)
      (new.openEnumeration closed name'? stop after') := by
  have heads := further.head?_lexeme
  simp only [openEnumeration, Token.startsWith_of_head? heads]
  intro _
  cases names with
  | none =>
      dsimp only
      split_ifs <;> exact ⟨rfl, by first | exact follows.setOpening rfl | exact follows⟩
  | some alikeName =>
      have declared := follows.declareSingle alikeName .enumeration
      dsimp only
      split
      next =>
        refine ⟨rfl, ?_⟩
        dsimp only
        split
        next => exact declared.setOpening rfl
        next => exact declared
      next => exact ⟨rfl, follows.mention alikeName _⟩

include follows ahead in
theorem stepEnumeration_agrees : Agrees unfolding floor depth count (old.stepEnumeration rest)
    (new.stepEnumeration rest') := by
  have keywords : (Token.startsWithKeyword rest' "class" || Token.startsWithKeyword rest' "struct") =
      (Token.startsWithKeyword rest "class" || Token.startsWithKeyword rest "struct") := by
    rw [Token.startsWithKeyword_of_head? ahead.head?_lexeme,
      Token.startsWithKeyword_of_head? ahead.head?_lexeme]
  generalize isClosed : (Token.startsWithKeyword rest "class" || Token.startsWithKeyword rest "struct") =
    closed at keywords
  have keyword : (if closed then 1 else 0) ≤ count := by
    rcases ahead.cases_head with ⟨rfl, -⟩ | ⟨wall, tail, -, -, rfl, -, isWall, -⟩ |
      ⟨-, -, -, -, more, -, -, -, -, rfl⟩
    · simp [← isClosed, Token.startsWithKeyword]
    · have notKeyword (text : String) := @Token.not_isKeyword_of_isWall wall isWall text
      simp [← isClosed, Token.startsWithKeyword, notKeyword]
    · split_ifs <;> omega
  have tracks : Token.Tracks unfolding.same count rest rest'
      ((if closed then 1 else 0) + Token.attributesLength 0 (rest.drop (if closed then 1 else 0)))
      ((if closed then 1 else 0) + Token.attributesLength 0 (rest'.drop (if closed then 1 else 0))) :=
    Token.Tracks.add (.inl ⟨rfl, keyword⟩) ahead fun _ further => further.attributesLength
  obtain ⟨more, behindLead⟩ := tracks.ahead ahead
  have names := behindLead.read?
  generalize leadEq : _ + Token.attributesLength 0 (rest.drop _) = lead at tracks behindLead names
  generalize leadEq' : _ + Token.attributesLength 0 (rest'.drop _) = lead' at tracks behindLead names
  generalize found : NameChain.read? (rest.drop lead) = name? at names
  generalize found' : NameChain.read? (rest'.drop lead') = name'? at names
  rw [stepEnumeration_eq isClosed leadEq found, stepEnumeration_eq keywords leadEq' found']
  intro short
  have stops := Nat.le_trans (le_openEnumeration _ _ _ _ _) short
  obtain ⟨rfl, leadBound⟩ := tracks.resolve_right fun far => by
    have long := far.1
    omega
  have sizes : (name'?.map NameChain.size).getD 0 = (name?.map NameChain.size).getD 0 := by
    cases names with
    | none => rfl
    | some both => exact both.1.size
  rw [sizes]
  have alikeNames : Option.Rel (NameChain.Alike unfolding.same) name? name'? := by
    cases names with
    | none => exact .none
    | some both => exact .some both.1
  exact openEnumeration_agrees follows (ahead.drop stops) alikeNames closed _ short

/-- A namespace definition or alias behind its names; the tokens follow these. -/
def openNamespace (draft : Draft) (keyword : Token) (names : List (String × Bool)) (stop : Nat)
    (after : List Token) : Draft × Nat :=
  match names, NameChain.read? (after.drop 1) with
  | [(name, _)], some target =>
      if Token.startsWith after "=" then
        (draft.recordUsing .namespaceAlias keyword target (some name), stop + 1 + target.size)
      else if Token.startsWith after "\x7b" then ({ draft with opening := some (.named names) }, stop)
      else (draft, stop)
  | [], _ => (draft, stop)
  | _ :: _, _ =>
      if Token.startsWith after "\x7b" then ({ draft with opening := some (.named names) }, stop)
      else (draft, stop)

theorem le_openNamespace (draft : Draft) (keyword : Token) (names : List (String × Bool)) (stop : Nat)
    (after : List Token) : stop ≤ (draft.openNamespace keyword names stop after).2 := by
  unfold openNamespace
  split
  next => split_ifs <;> simp [Nat.add_assoc]
  next => exact Nat.le_refl _
  next => split_ifs <;> exact Nat.le_refl _

theorem openNamespace_of_other {draft : Draft} {keyword : Token} {names : List (String × Bool)} {stop : Nat}
    {after : List Token} (other : Token.startsWith after "=" = false) :
    draft.openNamespace keyword names stop after =
      if !names.isEmpty && Token.startsWith after "\x7b" then
        ({ draft with opening := some (.named names) }, stop)
      else (draft, stop) := by
  unfold openNamespace
  split
  next => simp [other]
  next => rfl
  next => simp

theorem openNamespace_of_equals {draft : Draft} {keyword : Token} {names : List (String × Bool)} {stop : Nat}
    {equals : Token} {after : List Token} (isEquals : equals.isPunctuator "=" = true) :
    draft.openNamespace keyword names stop (equals :: after) =
      match names, NameChain.read? after with
      | [(name, _)], some target =>
          (draft.recordUsing .namespaceAlias keyword target (some name), stop + 1 + target.size)
      | _, _ => (draft, stop) := by
  have noBrace : Token.startsWith (equals :: after) "\x7b" = false :=
    Token.not_isPunctuator_of_isPunctuator isEquals (by decide)
  have starts : Token.startsWith (equals :: after) "=" = true := isEquals
  unfold openNamespace
  rw [noBrace, starts, List.drop_succ_cons, List.drop_zero]
  rcases names with - | ⟨⟨name, isInline⟩, - | ⟨next, names⟩⟩ <;> cases NameChain.read? after <;> rfl

theorem stepNamespace_eq {draft : Draft} {before rest : List Token} {keyword : Token} {lead stop count : Nat}
    {isInline : Bool} {names : List (String × Bool)} (leadEq : Token.attributesLength 0 rest = lead)
    (inlineEq : Token.startsWithKeyword before "inline" = isInline)
    (namesEq : definitionNames isInline [] 0 (rest.drop lead) = (names, count))
    (stopEq : lead + count + Token.attributesLength 0 (rest.drop (lead + count)) = stop) :
    draft.stepNamespace before keyword rest =
      if Token.startsWith (rest.drop lead) "\x7b" then
        ({ draft with opening := some (.anonymous keyword.span) }, lead)
      else draft.openNamespace keyword names stop (rest.drop stop) := by
  rw [stepNamespace]
  dsimp only
  rw [leadEq, inlineEq, namesEq]
  dsimp only
  rw [Token.attributesLength_add, stopEq]
  rfl

include follows alike in
theorem openNamespace_agrees {after after' : List Token} {more : Nat}
    (further : Token.Ahead unfolding.same more after after') (names : List (String × Bool)) (stop : Nat) :
    Agrees unfolding floor depth count (old.openNamespace token names stop after)
      (new.openNamespace token' names stop after') := by
  intro _
  have heads := further.head?_lexeme
  cases isEquals : Token.startsWith after "=" with
  | false =>
      have isEquals' := (Token.startsWith_of_head? heads "=").trans isEquals
      rw [openNamespace_of_other isEquals, openNamespace_of_other isEquals',
        Token.startsWith_of_head? heads]
      split
      next => exact ⟨rfl, follows.setOpening rfl⟩
      next => exact ⟨rfl, follows⟩
  | true =>
      rcases further.cases_head with ⟨rfl, -⟩ | ⟨wall, tail, -, -, rfl, -, isWall, -⟩ |
        ⟨equals, after, equals', after', more, rfl, rfl, alikeEquals, others, -⟩
      · simp [Token.startsWith] at isEquals
      · have notEquals := @Token.not_isPunctuator_of_isWall wall isWall "=" (by decide)
        simp [Token.startsWith, notEquals] at isEquals
      · have isEquals : equals.isPunctuator "=" = true := isEquals
        rw [openNamespace_of_equals isEquals,
          openNamespace_of_equals ((Token.isPunctuator_of_lexeme alikeEquals.lexeme "=").trans isEquals)]
        have targets := others.read?
        generalize NameChain.read? after = target? at targets ⊢
        generalize NameChain.read? after' = target'? at targets ⊢
        rcases names with - | ⟨⟨name, isInline⟩, - | ⟨next, names⟩⟩
        · exact ⟨rfl, follows⟩
        · cases targets with
          | none => exact ⟨rfl, follows⟩
          | some both =>
              dsimp only
              rw [both.1.size]
              exact ⟨rfl, follows.recordUsing alike both.1 _ _⟩
        · exact ⟨rfl, follows⟩

include follows alike ahead in
theorem stepNamespace_agrees (heads : before'.head?.map Token.lexeme = before.head?.map Token.lexeme) :
    Agrees unfolding floor depth count (old.stepNamespace before token rest)
      (new.stepNamespace before' token' rest') := by
  have tracks := ahead.attributesLength
  obtain ⟨more, behindLead⟩ := tracks.ahead ahead
  have braces := Token.startsWith_of_head? behindLead.head?_lexeme "\x7b"
  generalize leadEq : Token.attributesLength 0 rest = lead at tracks behindLead braces
  generalize leadEq' : Token.attributesLength 0 rest' = lead' at tracks behindLead braces
  generalize namesEq : definitionNames (Token.startsWithKeyword before "inline") [] 0 (rest.drop lead) = found
  obtain ⟨names, taken⟩ := found
  obtain ⟨sameNames, -⟩ := behindLead.definitionNames (Token.startsWithKeyword before "inline") [] 0
  rw [namesEq] at sameNames
  rw [stepNamespace_eq leadEq rfl namesEq rfl,
    stepNamespace_eq leadEq' (Token.startsWithKeyword_of_head? heads "inline") sameNames rfl, braces]
  split
  next =>
    intro short
    obtain ⟨rfl, -⟩ := tracks.resolve_right fun far => absurd short (Nat.not_le_of_lt far.1)
    exact ⟨rfl, follows.setOpening rfl⟩
  next =>
    intro short
    have stops := Nat.le_trans (le_openNamespace _ _ _ _ _) short
    obtain ⟨rfl, leadBound⟩ := tracks.resolve_right fun far => by
      have long := far.1
      omega
    have inFront := ahead.drop leadBound
    have takenBound : taken ≤ count - lead' := by
      have found := inFront.definitionNames (Token.startsWithKeyword before "inline") [] 0
      rw [namesEq] at found
      simpa using found.2
    have place : lead' + taken ≤ count := by omega
    obtain ⟨attributesEq, -⟩ := (ahead.drop place).attributesLength.resolve_right fun far => by
      have long := far.1
      omega
    rw [attributesEq]
    exact openNamespace_agrees follows alike (ahead.drop stops) names _ short

section Step

variable (low : floor.low ≤ token.start) (low' : floor.low' ≤ token'.start)

include follows behind alike ahead low low' in
theorem stepKeyword_agrees : Agrees unfolding floor depth count (old.stepKeyword before token rest)
    (new.stepKeyword before' token' rest') := by
  have heads := ahead.head?_lexeme
  rw [stepKeyword.eq_def, stepKeyword.eq_def, Token.text_of_lexeme alike.lexeme]
  split
  next => exact stepNamespace_agrees follows alike ahead behind.head?_lexeme
  next => exact stepUsing_agrees follows alike ahead
  next => exact stepTemplate_agrees follows behind alike ahead
  next => exact stepRecord_agrees follows ahead behind.head?_lexeme
  next => exact stepRecord_agrees follows ahead behind.head?_lexeme
  next => exact stepRecord_agrees follows ahead behind.head?_lexeme
  next => exact stepEnumeration_agrees follows ahead
  next =>
    exact fun _ => ⟨rfl, follows.setFrame
      { follows.frame with typedefStart := .some ⟨alike.start, low, low'⟩ } rfl⟩
  next => exact fun short => ⟨ahead.operatorLength short, follows⟩
  next =>
    rw [ahead.any_second (fun _ _ alike => by rw [Token.kind_of_lexeme alike])
      fun token isWall => beq_eq_false_iff_ne.mpr (Token.not_literal_of_isWall isWall)]
    split
    next => exact fun _ => ⟨rfl, follows.setOpening rfl⟩
    next => exact fun _ => ⟨rfl, follows⟩
  next => exact fun _ => ⟨rfl, follows⟩
  next => exact fun _ => ⟨by rw [Token.startsWith_of_head? heads], follows⟩
  next => exact fun _ => ⟨by rw [Token.startsWith_of_head? heads], follows⟩
  next => exact fun _ => ⟨by rw [Token.startsWith_of_head? heads], follows⟩
  next => exact fun _ => ⟨rfl, follows⟩

include follows behind alike ahead in
theorem stepPunctuator_agrees (opens : token.text ≠ "\x7b") (closes : token.text ≠ "\x7d") :
    Agrees unfolding floor depth count (old.stepPunctuator before token rest)
      (new.stepPunctuator before' token' rest') := by
  have heads := ahead.head?_lexeme
  rw [stepPunctuator.eq_def, stepPunctuator.eq_def, Token.text_of_lexeme alike.lexeme]
  split
  next text => exact absurd text opens
  next text => exact absurd text closes
  next => exact fun _ => ⟨rfl, follows.endStatement behind⟩
  next =>
    rw [follows.frame.parens]
    exact fun _ => ⟨rfl, follows.setParens _⟩
  next =>
    rw [follows.frame.parens]
    exact fun _ => ⟨rfl, follows.setParens _⟩
  next =>
    rw [Token.startsWith_of_head? heads]
    split
    next =>
      intro short
      obtain ⟨groupEq, -⟩ := (ahead.squareLength 1).resolve_right fun far =>
        absurd short (Nat.not_le_of_lt far.1)
      exact ⟨groupEq, follows⟩
    next => exact fun _ => ⟨rfl, follows⟩
  next => exact fun _ => ⟨ahead.memberLength.1, follows⟩
  next => exact fun _ => ⟨ahead.memberLength.1, follows⟩
  next => exact fun _ => ⟨ahead.memberLength.1, follows⟩
  next => exact fun _ => ⟨ahead.memberLength.1, follows⟩
  next =>
    rw [Token.startsWithIdentifier, Token.startsWithIdentifier,
      ahead.any_second (fun _ _ => Token.isIdentifier_of_lexeme) fun _ => Token.not_isIdentifier_of_isWall]
    exact fun _ => ⟨rfl, follows⟩
  next =>
    rw [follows.frame.kind]
    split
    next =>
      have parens := follows.frame.parens
      by_cases outside : old.frame.parens = 0
      · rw [if_pos outside, if_pos (parens.trans outside)]
        exact fun _ => ⟨rfl, follows.awaitEnumerator true⟩
      · rw [if_neg outside, if_neg (parens ▸ outside)]
        exact fun _ => ⟨rfl, follows⟩
    next => exact fun _ => ⟨rfl, follows⟩
  next => exact fun _ => ⟨rfl, follows⟩

include follows behind alike ahead low low' in
theorem step_agrees (other : token.isBrace = false) :
    Agrees unfolding floor depth count (old.step before token rest) (new.step before' token' rest') := by
  rw [step.eq_def, step.eq_def, Token.kind_of_lexeme alike.lexeme]
  split
  next => exact stepKeyword_agrees follows behind alike ahead low low'
  next => exact stepName_agrees follows behind alike ahead
  next => exact stepName_agrees follows behind alike ahead
  next kind =>
    have notBrace : token.text ≠ "\x7b" ∧ token.text ≠ "\x7d" := by
      simpa [Token.isBrace, Token.opensBrace, Token.closesBrace, Token.isPunctuator, kind] using other
    exact stepPunctuator_agrees follows behind alike ahead notBrace.1 notBrace.2
  next => exact fun _ => ⟨rfl, follows⟩
  next => exact fun _ => ⟨rfl, follows⟩

end Step

end Steps

end Draft

end Requalify
