import Requalify.Proofs.Outline.Footprint

/-!
What one step of reading leaves in a draft. At most one landmark is new, and its tokens are among those
that the step takes.
-/

namespace Requalify

theorem drop_suffix_behind {tokens front behind : List Token} {last : Token} {count : Nat}
    (parts : tokens = front ++ last :: behind) (enough : front.length + 1 ≤ count) :
    tokens.drop count <:+ behind := by
  have passed : (front ++ [last]).drop count = [] :=
    List.drop_eq_nil_of_le (by simpa using enough)
  rw [parts, List.append_cons, List.drop_append, passed, List.nil_append]
  exact List.drop_suffix _ _

theorem NameChain.read?_first {first : Token} {rest : List Token} {chain : NameChain}
    (found : read? (first :: rest) = some chain) : first.kind ≠ .punctuator := by
  intro kind
  rcases read?_head found with isName | isScope
  · simp [Token.isIdentifier, kind] at isName
  · simp [Token.isScope, kind] at isScope

namespace Draft

/-- What a step that takes `token` and some tokens of `rest` may make of a draft. -/
inductive Leaves (draft : Draft) (token : Token) (rest : List Token) : Draft × Nat → Prop
  | nothing {next : Draft} {more : Nat}
      (keeps : ∀ landmarks, draft.Sound landmarks → next.Sound landmarks) :
      Leaves draft token rest (next, more)
  | landmark {next : Draft} {more : Nat} (print : Footprint) (valid : print.Valid)
      (within : print.tokens <:+ token :: rest) (passed : rest.drop more <:+ print.behind)
      (adds : ∀ landmarks, draft.Sound landmarks → next.Sound (print.landmark :: landmarks)) :
      Leaves draft token rest (next, more)

section Landmarks

variable (draft : Draft) {token : Token} {rest : List Token}

theorem mention_leaves (skip : Nat) {more : Nat} {chain : NameChain} (lead : MentionLead)
    (found : NameChain.read? ((token :: rest).drop skip) = some chain)
    (taken : skip + chain.size ≤ more + 1) :
    Leaves draft token rest (draft.mention chain lead, more) := by
  obtain ⟨front, last, behind, parts, spelled⟩ := NameChain.read?_spelled found
  let print : Footprint := ⟨.mention ⟨chain, draft.frame.scope, lead⟩, front, last, behind⟩
  have place : print.tokens = (token :: rest).drop skip := parts.symm
  have opens : print.first.kind ≠ .punctuator := by
    obtain ⟨others, tokens⟩ := print.tokens_eq_cons
    rw [← place, tokens] at found
    exact NameChain.read?_first found
  refine .landmark print ⟨opens, spelled⟩ ?_ ?_ ?_
  · rw [place]
    exact List.drop_suffix _ _
  · have ahead : rest.drop more = ((token :: rest).drop skip).drop (more + 1 - skip) := by
      have enough : skip + (more + 1 - skip) = more + 1 := by
        have positive := chain.size_pos
        omega
      rw [List.drop_drop, enough, List.drop_succ_cons]
    rw [ahead]
    have size := spelled.size
    exact drop_suffix_behind parts (by omega)
  · rintro landmarks ⟨writable, mentions, statements, keywords⟩
    exact ⟨writable, mentions.cons_cons _, statements.cons _, keywords.cons _⟩

theorem recordUsing_leaves (skip : Nat) {target : NameChain} (kind : UsingKind)
    (newName : Option String) (keyword : token.kind = .keyword)
    (found : NameChain.read? (rest.drop skip) = some target) :
    Leaves draft token rest (draft.recordUsing kind token target newName, skip + target.size) := by
  obtain ⟨front, last, behind, parts, spelled⟩ := NameChain.read?_spelled found
  let statement : UsingStatement := ⟨kind, token.start, target.start, target.stop⟩
  let entry : ScopedUsing :=
    ⟨statement, draft.frame.scope, target.leading.isSome, target.path, newName⟩
  let print : Footprint := ⟨.statement entry, token :: (rest.take skip ++ front), last, behind⟩
  have stop : statement.stop = last.stop := congrArg (·.span.stop) spelled.name
  obtain ⟨first, inTarget, start⟩ := spelled.exists_start
  have targetStart : ∃ token ∈ print.front ++ [print.last], statement.targetStart = token.start := by
    refine ⟨first, ?_, start⟩
    rcases List.mem_append.mp inTarget with inFront | isLast
    · simp [print, inFront]
    · exact List.mem_append_right _ isLast
  refine .landmark print
    ⟨by simp [print, Footprint.first, keyword], keyword, rfl, stop, targetStart⟩ ?_ ?_ ?_
  · have whole : print.tokens = token :: rest := by
      simp only [print, Footprint.tokens, List.cons_append, List.append_assoc]
      rw [← parts, List.take_append_drop]
    exact whole.symm ▸ List.suffix_refl (token :: rest)
  · rw [← List.drop_drop]
    have size := spelled.size
    exact drop_suffix_behind parts (by omega)
  · rintro landmarks ⟨writable, mentions, statements, keywords⟩
    exact ⟨writable, mentions.cons _, statements.cons_cons _, keywords.cons _⟩

/-- The keyword of an anonymous namespace, with the attributes in front of its brace. -/
theorem anonymous_leaves {lead : Nat} (opens : token.kind ≠ .punctuator)
    (braced : Token.startsWith (rest.drop lead) "\x7b" = true) :
    Leaves draft token rest ({ draft with opening := some (.anonymous token.span) }, lead) := by
  obtain ⟨brace, others, behind, isBrace⟩ : ∃ brace others, rest.drop lead = brace :: others ∧
      brace.kind = .punctuator := by
    cases tokens : rest.drop lead with
    | nil => simp [tokens, Token.startsWith] at braced
    | cons brace others =>
        rw [tokens] at braced
        simp [Token.startsWith, Token.isPunctuator] at braced
        exact ⟨brace, others, rfl, braced.1⟩
  obtain ⟨front, last, parts⟩ : ∃ front last, token :: rest.take lead = front ++ [last] :=
    ⟨_, _, (List.dropLast_concat_getLast (List.cons_ne_nil token (rest.take lead))).symm⟩
  let print : Footprint := ⟨.keyword token.span, front, last, rest.drop lead⟩
  have whole : print.tokens = token :: rest := by
    change front ++ last :: rest.drop lead = token :: rest
    rw [List.append_cons, ← parts, List.cons_append, List.take_append_drop]
  have first : print.first = token := by
    obtain ⟨_, tokens⟩ := print.tokens_eq_cons
    exact (List.cons.inj (tokens.symm.trans whole)).1
  refine .landmark print ⟨first ▸ opens, ?_, brace, others, behind, isBrace⟩ ?_ ?_ ?_
  · rw [first]
  · exact whole.symm ▸ List.suffix_refl (token :: rest)
  · exact List.suffix_refl _
  · rintro landmarks ⟨writable, mentions, statements, keywords⟩
    have fewer : (draft.anonymousNamespaces.map Landmark.keyword).Sublist
        (draft.keywords.map .keyword) := (List.sublist_append_right _ _).map _
    exact ⟨writable.setOpening trivial, mentions.cons _, statements.cons _,
      (fewer.trans keywords).cons_cons _⟩

end Landmarks

section Steps

variable (draft : Draft) (before : List Token) {token : Token} (rest : List Token)

theorem readName_leaves {chain : NameChain} (found : NameChain.read? (token :: rest) = some chain) :
    Leaves draft token rest
      (draft.readName before chain (rest.drop (chain.size - 1)), chain.size - 1) := by
  unfold readName
  split
  next => exact .nothing fun _ sound => sound.declareEnumerator chain.last
  next =>
    split
    next => exact .nothing fun _ sound => sound
    next =>
      split
      next => exact .nothing fun _ sound => sound.declareVariable chain.last _
      next => exact draft.mention_leaves 0 _ found (by omega)

theorem stepName_leaves : Leaves draft token rest (draft.stepName before token rest) := by
  unfold stepName
  split
  next => exact .nothing fun _ sound => sound
  next =>
    split
    next => exact .nothing fun _ sound => sound
    next chain found => exact draft.readName_leaves before rest found

theorem stepNamespace_leaves (keyword : token.kind = .keyword)
    (named : ∀ token ∈ rest, token.Named) :
    Leaves draft token rest (draft.stepNamespace before token rest) := by
  have definition : ∀ entry ∈ (definitionNames (Token.startsWithKeyword before "inline") [] 0
      (rest.drop (Token.attributesLength 0 rest))).1, IsName entry.1 :=
    definitionNames_named (by simp) fun token member => named token (List.mem_of_mem_drop member)
  simp only [stepNamespace]
  split
  next braced => exact draft.anonymous_leaves (by simp [keyword]) braced
  next =>
    split
    next name inline target single found =>
      split
      next =>
        rw [List.drop_drop] at found
        exact draft.recordUsing_leaves _ _ _ keyword found
      next =>
        split
        next => exact .nothing fun _ sound => sound.setOpening rfl definition
        next => exact .nothing fun _ sound => sound
    next => exact .nothing fun _ sound => sound
    next =>
      split
      next => exact .nothing fun _ sound => sound.setOpening rfl definition
      next => exact .nothing fun _ sound => sound

theorem stepUsing_leaves (keyword : token.kind = .keyword) :
    Leaves draft token rest (draft.stepUsing token rest) := by
  unfold stepUsing
  split
  next => exact .nothing fun _ sound => sound
  next next after =>
    split
    next =>
      split
      next target found =>
        exact draft.recordUsing_leaves 1 _ _ keyword found
      next => exact .nothing fun _ sound => sound
    next =>
      split
      next => exact .nothing fun _ sound => sound.declare next.name .typeAlias
      next =>
        split
        next => exact .nothing fun _ sound => sound
        next =>
          dsimp only
          split
          next target found =>
            split
            next => exact .nothing fun _ sound => sound
            next => exact draft.recordUsing_leaves _ _ _ keyword found
          next => exact .nothing fun _ sound => sound

theorem stepTemplate_leaves (keyword : Token) :
    Leaves draft token rest (draft.stepTemplate before keyword rest) := by
  unfold stepTemplate
  split
  next => exact .nothing fun _ sound => sound
  next => exact .nothing fun _ sound => sound

theorem recordName_found {all : List Token} {count : Nat} {name : NameChain} {tokens : List Token}
    (found : NameChain.read? (all.drop count) = some name)
    (place : tokens = all.drop (count + name.size)) :
    NameChain.read? (all.drop (recordName count name tokens).2) =
      some (recordName count name tokens).1 := by
  fun_induction recordName count name tokens with
  | case1 count name tokens lead missing => exact found
  | case2 count name tokens lead candidate candidateFound after opens ih =>
      apply ih
      · rw [place, List.drop_drop] at candidateFound
        exact candidateFound
      · simp only [after, place, List.drop_drop]
        congr 1
        omega
  | case3 count name tokens lead candidate candidateFound after closed => exact found

theorem stepRecord_leaves : Leaves draft token rest (draft.stepRecord before rest) := by
  simp only [stepRecord]
  split
  next =>
    split
    next => exact .nothing fun _ sound => sound.setOpening rfl trivial
    next => exact .nothing fun _ sound => sound
  next first found =>
    have named := recordName_found found rfl
    split
    next => exact draft.mention_leaves (_ + 1) _ named (by omega)
    next =>
      split
      next => exact .nothing fun _ sound => sound.declareSingle _ .record
      next => exact .nothing fun _ sound => (sound.declareSingle _ .record).setOpening rfl trivial

theorem stepEnumeration_leaves : Leaves draft token rest (draft.stepEnumeration rest) := by
  unfold stepEnumeration
  extract_lets closed lead lead' name? stop after body underlying named opened
  split
  next =>
    refine .nothing fun landmarks sound => ?_
    have declared : named.Sound landmarks := by
      cases found : name? with
      | none => simpa only [named, found] using sound
      | some name => simpa only [named, found] using sound.declareSingle name .enumeration
    simp only [opened]
    split
    next => exact declared.setOpening rfl trivial
    next => exact declared
  next =>
    cases found : name? with
    | none => exact .nothing fun _ sound => sound
    | some name =>
        have taken : stop = lead' + name.size := by simp [stop, found]
        exact draft.mention_leaves (lead' + 1) _ found (by omega)

theorem stepKeyword_leaves (keyword : token.kind = .keyword)
    (named : ∀ token ∈ rest, token.Named) :
    Leaves draft token rest (draft.stepKeyword before token rest) := by
  unfold stepKeyword
  split
  next => exact draft.stepNamespace_leaves before rest keyword named
  next => exact draft.stepUsing_leaves rest keyword
  next => exact draft.stepTemplate_leaves before rest token
  next => exact draft.stepRecord_leaves before rest
  next => exact draft.stepRecord_leaves before rest
  next => exact draft.stepRecord_leaves before rest
  next => exact draft.stepEnumeration_leaves rest
  next => exact .nothing fun _ sound => sound
  next => exact .nothing fun _ sound => sound
  next =>
    split
    next => exact .nothing fun _ sound => sound.setOpening rfl trivial
    next => exact .nothing fun _ sound => sound
  all_goals exact .nothing fun _ sound => sound

theorem stepPunctuator_leaves : Leaves draft token rest (draft.stepPunctuator before token rest) := by
  unfold stepPunctuator
  split
  next => exact .nothing fun _ sound => sound.openScope token _
  next => exact .nothing fun _ sound => sound.closeScope token
  next => exact .nothing fun _ sound => sound.endStatement before
  case h_12 =>
    split
    next =>
      split
      next => exact .nothing fun _ sound => sound
      next => exact .nothing fun _ sound => sound
    next => exact .nothing fun _ sound => sound
  all_goals exact .nothing fun _ sound => sound

theorem step_leaves (named : ∀ token ∈ rest, token.Named) :
    Leaves draft token rest (draft.step before token rest) := by
  unfold step
  cases kind : token.kind with
  | keyword => exact draft.stepKeyword_leaves before rest kind named
  | identifier => exact draft.stepName_leaves before rest
  | scope => exact draft.stepName_leaves before rest
  | punctuator => exact draft.stepPunctuator_leaves before rest
  | number => exact .nothing fun _ sound => sound
  | literal => exact .nothing fun _ sound => sound

end Steps

end Draft

end Requalify
