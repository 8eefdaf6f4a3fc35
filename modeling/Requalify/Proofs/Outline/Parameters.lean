import Requalify.Proofs.Outline.TypeLike

/-!
Parameters of a function. Each name behind a type in the parentheses of a namespace or record is parked, and
what is parked waits up to the brace of the body, past braced values behind names.
-/

namespace Requalify

/-- Types each with a name behind it, and commas between them. -/
inductive Token.SpellsParameters : List String → List Token → Prop
  | last {type : List Token} {name : Token} (typeLike : TypeLike type)
      (isName : name.isIdentifier = true) : SpellsParameters [name.text] (type ++ [name])
  | more {names : List String} {type rest : List Token} {name comma : Token}
      (typeLike : TypeLike type) (isName : name.isIdentifier = true)
      (isComma : comma.isPunctuator "," = true) (others : SpellsParameters names rest) :
      SpellsParameters (name.text :: names) (type ++ name :: comma :: rest)

namespace Draft

/-- What is declared here is a parameter. -/
structure InParameters (draft : Draft) : Prop where
  kind : draft.frame.kind.holdsMembers = true ∨ draft.frame.kind = .record
  parens : 0 < draft.frame.parens
  typedefStart : draft.frame.typedefStart = none

section Steps

variable {draft : Draft} {before : List Token} {name next : Token} (left : List Token)

theorem isDeclarator_of_type (ends : Token.endsType before = true)
    (notComma : Token.startsWith (before.dropWhile Token.isIndirection) "," = false)
    (follows : next.isPunctuator "," = true ∨ next.isPunctuator ")" = true) :
    draft.isDeclarator before (next :: left) = true := by
  simp only [isDeclarator, notComma, ends]
  rcases follows with comma | closes
  · obtain ⟨kind, text⟩ : next.kind = .punctuator ∧ next.text = "," := by
      simpa [Token.isPunctuator] using comma
    simp [kind, text, declaratorFollows]
  · obtain ⟨kind, text⟩ : next.kind = .punctuator ∧ next.text = ")" := by
      simpa [Token.isPunctuator] using closes
    simp [kind, text, declaratorFollows]

theorem step_parks (inside : draft.InParameters) (isName : name.isIdentifier = true)
    (ends : Token.endsType before = true)
    (notComma : Token.startsWith (before.dropWhile Token.isIndirection) "," = false)
    (follows : next.isPunctuator "," = true ∨ next.isPunctuator ")" = true) :
    draft.step before name (next :: left) =
      ({ draft with
        parked := (name.text, name.start) :: draft.parked
        frame := { draft.frame with declaring := some draft.frame.parens } }, 0) := by
  have isMark : next.kind = .punctuator := follows.elim Token.kind_of_isPunctuator Token.kind_of_isPunctuator
  have single := NameChain.read?_name isName
    (show (next :: left).head?.any Token.isScope = false by simp [Token.isScope, isMark])
  have declares := draft.isDeclarator_of_type left ends notComma follows
  have positive : draft.frame.parens ≠ 0 := Nat.ne_of_gt inside.parens
  have noEnumerator : draft.expectsEnumerator = false := by simp [expectsEnumerator, positive]
  have noLabel : draft.isLabel before (next :: left) = false := by
    have noColon : next.isPunctuator ":" = false :=
      follows.elim (Token.not_isPunctuator_of_isPunctuator · (by decide))
        (Token.not_isPunctuator_of_isPunctuator · (by decide))
    simp [isLabel, Token.startsWith, noColon]
  have parks : draft.declare name.name .variable =
      { draft with parked := (name.text, name.start) :: draft.parked } := by
    have inList : (0 < draft.frame.parens && (draft.frame.kind.holdsMembers ||
        draft.frame.kind == .record)) = true := by
      simpa [inside.parens] using inside.kind
    simp [declare, positive, inList, Token.name, Token.span]
  have declared : draft.declareVariable name.name (next :: left) =
      { draft with
        parked := (name.text, name.start) :: draft.parked
        frame := { draft.frame with declaring := some draft.frame.parens } } := by
    simp [declareVariable, inside.typedefStart, positive, parks]
  have notSeparator := Token.not_isScope_of_isIdentifier isName
  have named : draft.stepName before name (next :: left) =
      (draft.declareVariable name.name (next :: left), 0) := by
    simp [stepName, notSeparator, single, readName, NameChain.isSingle, noEnumerator, noLabel, declares,
      NameChain.size]
  simp only [step, Token.kind_of_isIdentifier isName, named, declared]

end Steps

namespace InParameters

variable {draft next : Draft}

theorem of_passes {before tokens left : List Token} (inside : draft.InParameters)
    (passes : draft.Passes before tokens left next)
    (parens : tokens.foldl Token.parensBehind draft.frame.parens = draft.frame.parens) :
    next.InParameters where
  kind := by
    rw [passes.kind]
    exact inside.kind
  parens := by
    rw [passes.parens, parens]
    exact inside.parens
  typedefStart := passes.waits.typedefStart.trans inside.typedefStart

end InParameters

namespace Passes

variable {type tokens : List Token} {name follower : Token}

/-- A type in front of the name of a parameter. -/
theorem of_type (typeLike : Token.TypeLike type) (isName : name.isIdentifier = true)
    (follows : follower.isPunctuator "," = true ∨ follower.isPunctuator ")" = true) (draft : Draft)
    (before left : List Token) : ∃ next, draft.Passes before type (name :: follower :: left) next := by
  have notSeparator := Token.not_isScope_of_isIdentifier isName
  cases typeLike with
  | grouped grouped ends => exact of_plain grouped.isPlain notSeparator ends.not_leadsName draft before _
  | @elaborated front marks keyword layout constancy isKeyword elaborates valid decorate =>
      have decorate' : ∀ token ∈ front, token.decoratesType = true := fun token member =>
        Token.decoratesType_of_isConstancy (constancy token member)
      have notLead {tokens : List Token} (decorate : ∀ token ∈ tokens, token.decoratesType = true) :
          ∀ token ∈ tokens.getLast?, token.leadsName = false := fun token last =>
        Token.not_leadsName_of_decoratesType (decorate token (List.mem_of_getLast? last))
      have notScope : keyword.isScope = false := by simp [Token.isScope, isKeyword]
      obtain ⟨headed, first⟩ := of_plain (Token.grouped_of_decorate decorate').isPlain notScope
        (notLead decorate') draft before
        (layout.tokens ++ (marks ++ name :: follower :: left))
      have second := of_elaborated headed (front.reverse ++ before) isKeyword elaborates valid
        (Token.leavesName_of_decorate decorate isName follows left)
      obtain ⟨next, third⟩ := of_plain (Token.grouped_of_decorate decorate).isPlain notSeparator
        (notLead decorate) (headed.mention layout.chain .typeKeyword)
        ((keyword :: layout.tokens).reverse ++ (front.reverse ++ before)) (follower :: left)
      have further := second.trans third
      rw [← List.cons_append, ← List.append_assoc] at first
      exact ⟨next, first.trans further⟩

/-- A type with a name behind it. -/
theorem parameter {draft : Draft} (inside : draft.InParameters) (typeLike : Token.TypeLike type)
    (isName : name.isIdentifier = true)
    (follows : follower.isPunctuator "," = true ∨ follower.isPunctuator ")" = true)
    (before left : List Token) :
    ∃ next, draft.Passes before (type ++ [name]) (follower :: left) next ∧ next.InParameters ∧
      (name.text, name.start) ∈ next.parked := by
  obtain ⟨typed, first⟩ := of_type typeLike isName follows draft before left
  have inside' := inside.of_passes first (typeLike.foldl_parensBehind _)
  have parks := step_parks left inside' isName (typeLike.ends.endsType before)
    (typeLike.ends.not_comma before) follows
  have second : typed.Passes (type.reverse ++ before) [name] (follower :: left)
      (typed.step (type.reverse ++ before) name (follower :: left)).1 := by
    apply of_step (Token.isQuiet_of_isPlain (Token.isPlain_of_isIdentifier isName))
    · rw [List.nil_append, ← step_stride typed, parks]
      rfl
    · simp
  refine ⟨_, first.trans second, inside'.of_passes second ?_, ?_⟩
  · exact Token.foldl_parensBehind (by simpa using Token.isParen_of_isIdentifier isName) _
  · rw [parks]
    simp

theorem comma {draft : Draft} (inside : draft.InParameters) (isComma : follower.isPunctuator "," = true)
    (before left : List Token) :
    ∃ next, draft.Passes before [follower] left next ∧ next.InParameters := by
  have isPlain := Token.isPlain_of_isPunctuator isComma (by decide)
  have passes : draft.Passes before [follower] left (draft.step before follower left).1 := by
    apply of_step (Token.isQuiet_of_isPlain isPlain)
    · exact Token.stride_of_isPunctuator before left isComma (by decide)
    · simp
  refine ⟨_, passes, inside.of_passes passes ?_⟩
  have noParen : follower.isParen = false := by
    simp [Token.isParen, Token.not_isPunctuator_of_isPunctuator isComma]
  exact Token.foldl_parensBehind (by simpa using noParen) _

/-- All parameters are parked. -/
theorem parameters {names : List String} (spelled : Token.SpellsParameters names tokens)
    (closes : follower.isPunctuator ")" = true) {draft : Draft} (inside : draft.InParameters)
    (before left : List Token) :
    ∃ next, draft.Passes before tokens (follower :: left) next ∧ next.InParameters ∧
      ∀ name ∈ names, ∃ offset, (name, offset) ∈ next.parked := by
  induction spelled generalizing draft before with
  | last typeLike isName =>
      obtain ⟨next, passes, inside', parked⟩ := parameter inside typeLike isName (.inr closes) before left
      refine ⟨next, passes, inside', fun name member => ?_⟩
      obtain rfl := List.mem_singleton.mp member
      exact ⟨_, parked⟩
  | @more names type rest name comma typeLike isName isComma others ih =>
      obtain ⟨named, first, inside', parked⟩ := parameter inside typeLike isName (.inl isComma) before
        (rest ++ follower :: left)
      obtain ⟨parted, second, inside''⟩ := Passes.comma inside' isComma ((type ++ [name]).reverse ++ before)
        (rest ++ follower :: left)
      obtain ⟨next, third, last, known⟩ := ih inside'' ([comma].reverse ++ ((type ++ [name]).reverse ++ before))
      have further := second.trans third
      have passes := first.trans further
      rw [List.append_assoc] at passes
      refine ⟨next, passes, last, List.forall_mem_cons.mpr ⟨⟨name.start, ?_⟩, known⟩⟩
      exact further.waits.parked.subset parked

end Passes

end Draft

end Requalify
