import Requalify.Proofs.Outline.Stays

/-!
The anonymous namespaces of an outline. Their keywords are those that reading stops at with nothing but
attributes in front of the brace that follows.
-/

namespace Requalify

/-- An anonymous namespace begins at `token`. -/
def Token.opensAnonymous (token : Token) (rest : List Token) : Bool :=
  token.isKeyword "namespace" && startsWith (afterAttributes rest) "\x7b"

namespace Draft

def kinds (draft : Draft) : List ScopeKind :=
  draft.scopes.toList.map (·.kind)

/-- No scope comes in and no keyword of an anonymous namespace, and none that is known goes. -/
def Quiet (draft next : Draft) : Prop :=
  (next.kinds, next.anonymousNamespaces) = (draft.kinds, draft.anonymousNamespaces) ∧
    (next.opening = draft.opening ∨ Opening.keywords next.opening = [])

section Quiet

variable (draft : Draft)

theorem Quiet.refl : draft.Quiet draft :=
  ⟨rfl, .inl rfl⟩

theorem declare_quiet (name : NameToken) (kind : DeclarationKind) :
    draft.Quiet (draft.declare name kind) := by
  unfold declare
  dsimp only
  split_ifs <;> exact ⟨rfl, .inl rfl⟩

theorem declareSingle_quiet (chain : NameChain) (kind : DeclarationKind) :
    draft.Quiet (if chain.isSingle then draft.declare chain.last kind else draft) := by
  split
  next => exact draft.declare_quiet _ _
  next => exact .refl draft

theorem declareEnumerator_quiet (name : NameToken) : draft.Quiet (draft.declareEnumerator name) := by
  unfold declareEnumerator
  dsimp only
  split
  next =>
    split
    next => exact ⟨rfl, .inl rfl⟩
    next => exact ⟨rfl, .inl rfl⟩
  next => exact ⟨rfl, .inl rfl⟩

theorem declareVariable_quiet (name : NameToken) (rest : List Token) :
    draft.Quiet (draft.declareVariable name rest) := by
  unfold declareVariable
  dsimp only
  split_ifs
  · exact ⟨rfl, .inl rfl⟩
  · exact draft.declare_quiet name .function
  · exact draft.declare_quiet name .variable

theorem readName_quiet (before : List Token) (chain : NameChain) (rest : List Token) :
    draft.Quiet (draft.readName before chain rest) := by
  unfold readName
  split_ifs
  · exact draft.declareEnumerator_quiet _
  · exact .refl draft
  · exact draft.declareVariable_quiet _ _
  all_goals exact ⟨rfl, .inl rfl⟩

theorem finishTypedef_quiet (tokens : List Token) : draft.Quiet (draft.finishTypedef tokens) := by
  unfold finishTypedef
  split
  next => exact .refl draft
  next => exact declare_quiet _ _ _

theorem endStatement_quiet (before : List Token) : draft.Quiet (draft.endStatement before) := by
  unfold endStatement
  dsimp only
  split
  next =>
    refine ⟨?_, .inr rfl⟩
    split
    next => exact (finishTypedef_quiet _ _).1
    next => rfl
  next => exact .refl draft

theorem closeScope_quiet (brace : Token) : draft.Quiet (draft.closeScope brace) := by
  unfold closeScope
  split
  next => exact ⟨rfl, .inr rfl⟩
  next =>
    refine ⟨Prod.ext (List.ext_getElem? fun index => ?_) rfl, .inr rfl⟩
    simp only [kinds, Array.toList_modify, List.getElem?_map, List.getElem?_modify]
    cases draft.scopes.toList[index]? with
    | none => rfl
    | some scope => by_cases same : draft.frame.scope = index <;> simp [same]

variable (before : List Token) (token : Token) (rest : List Token)

theorem stepName_quiet : draft.Quiet (draft.stepName before token rest).1 := by
  unfold stepName
  split
  next => exact .refl draft
  next =>
    split
    next => exact .refl draft
    next => exact draft.readName_quiet _ _ _

theorem stepUsing_quiet : draft.Quiet (draft.stepUsing token rest).1 := by
  unfold stepUsing
  split
  next => exact .refl draft
  next =>
    split_ifs
    next =>
      split
      next => exact ⟨rfl, .inl rfl⟩
      next => exact .refl draft
    next => exact draft.declare_quiet _ _
    next => exact .refl draft
    all_goals
      dsimp only
      split
      next => split_ifs <;> exact ⟨rfl, .inl rfl⟩
      next => exact .refl draft

theorem stepRecord_quiet : draft.Quiet (draft.stepRecord before rest).1 := by
  unfold stepRecord
  dsimp only
  split
  next =>
    split_ifs
    · exact ⟨rfl, .inr rfl⟩
    · exact .refl draft
  next =>
    split_ifs
    all_goals first
      | exact ⟨rfl, .inl rfl⟩
      | exact ⟨rfl, .inr rfl⟩
      | exact draft.declare_quiet _ _
      | exact ⟨(draft.declare_quiet _ _).1, .inr rfl⟩

theorem stepEnumeration_quiet : draft.Quiet (draft.stepEnumeration rest).1 := by
  unfold stepEnumeration
  dsimp only
  generalize Token.attributesLength _ _ = lead
  cases NameChain.read? (rest.drop lead) with
  | none => split_ifs <;> first | exact ⟨rfl, .inl rfl⟩ | exact ⟨rfl, .inr rfl⟩
  | some name =>
      have declared := draft.declareSingle_quiet name .enumeration
      split_ifs
      all_goals first
        | exact ⟨rfl, .inl rfl⟩
        | exact ⟨declared.1, .inr rfl⟩
        | exact declared

theorem stepNamespace_quiet (named : Token.startsWith (Token.afterAttributes rest) "\x7b" = false) :
    draft.Quiet (draft.stepNamespace before token rest).1 := by
  unfold stepNamespace
  dsimp only
  rw [show rest.drop (Token.attributesLength 0 rest) = Token.afterAttributes rest from rfl, named,
    if_neg (by decide)]
  generalize definitionNames _ _ _ _ = found
  obtain ⟨names, count⟩ := found
  dsimp only
  split
  next => split_ifs <;> first | exact ⟨rfl, .inl rfl⟩ | exact ⟨rfl, .inr rfl⟩
  next => exact .refl draft
  next => split_ifs <;> first | exact ⟨rfl, .inl rfl⟩ | exact ⟨rfl, .inr rfl⟩

theorem stepKeyword_quiet (other : token.kind = .keyword → token.opensAnonymous rest = false)
    (kind : token.kind = .keyword) : draft.Quiet (draft.stepKeyword before token rest).1 := by
  unfold stepKeyword
  split
  next text =>
    have named := other kind
    refine draft.stepNamespace_quiet _ _ _ ?_
    simpa [Token.opensAnonymous, Token.isKeyword, kind, text] using named
  next => exact draft.stepUsing_quiet _ _
  next =>
    unfold stepTemplate
    split
    next => exact ⟨rfl, .inl rfl⟩
    next => exact .refl draft
  all_goals first
    | exact draft.stepRecord_quiet _ _
    | exact draft.stepEnumeration_quiet _
    | exact ⟨rfl, .inl rfl⟩
    | (split_ifs <;> first | exact ⟨rfl, .inl rfl⟩ | exact ⟨rfl, .inr rfl⟩)

theorem stepPunctuator_quiet (other : token.text ≠ "\x7b") :
    draft.Quiet (draft.stepPunctuator before token rest).1 := by
  unfold stepPunctuator
  split
  next text => exact absurd text other
  next => exact draft.closeScope_quiet _
  next => exact draft.endStatement_quiet _
  all_goals first
    | exact ⟨rfl, .inl rfl⟩
    | skip
  split
  next => split_ifs <;> exact ⟨rfl, .inl rfl⟩
  next => exact .refl draft

theorem step_quiet (other : token.opensAnonymous rest = false)
    (noBrace : token.isPunctuator "\x7b" = false) :
    draft.Quiet (draft.step before token rest).1 := by
  unfold step
  split
  next kind => exact draft.stepKeyword_quiet _ _ _ (fun _ => other) kind
  next => exact draft.stepName_quiet _ _ _
  next => exact draft.stepName_quiet _ _ _
  next kind =>
    refine draft.stepPunctuator_quiet _ _ _ ?_
    simpa [Token.isPunctuator, kind] using noBrace
  next => exact .refl draft
  next => exact .refl draft

end Quiet

theorem openScope_keywords (draft : Draft) (brace : Token) (afterName : Bool) :
    (draft.openScope brace afterName).keywords = draft.keywords := by
  simp [openScope, keywords, Opening.keywords]

theorem step_of_opensAnonymous (draft : Draft) (before : List Token) {token : Token}
    {rest : List Token} (opens : token.opensAnonymous rest = true) :
    draft.step before token rest =
      ({ draft with opening := some (.anonymous token.span) }, Token.attributesLength 0 rest) := by
  obtain ⟨⟨kind, text⟩, brace⟩ : (token.kind = .keyword ∧ token.text = "namespace") ∧
      Token.startsWith (Token.afterAttributes rest) "\x7b" = true := by
    simpa [Token.opensAnonymous, Token.isKeyword] using opens
  simp only [step, kind, stepKeyword, text, stepNamespace]
  exact if_pos brace

/-- A keyword that waits is followed by its brace. -/
def Awaits (draft : Draft) (tokens : List Token) : Prop :=
  Opening.keywords draft.opening ≠ [] → Token.startsWith tokens "\x7b" = true

theorem step_keywords {draft : Draft} (before : List Token) {token : Token} {rest : List Token}
    (awaits : draft.Awaits (token :: rest)) :
    (draft.step before token rest).1.keywords =
        (if token.opensAnonymous rest then [token.span] else []) ++ draft.keywords ∧
      (draft.step before token rest).1.Awaits (rest.drop (Token.stride before token rest)) := by
  rw [← draft.step_stride]
  by_cases brace : token.isPunctuator "\x7b" = true
  · have other : token.opensAnonymous rest = false := by
      have kind : token.kind = .punctuator := by
        simp only [Token.isPunctuator, Bool.and_eq_true, beq_iff_eq] at brace
        exact brace.1
      simp [Token.opensAnonymous, Token.isKeyword, kind]
    rw [draft.step_of_opensBrace before rest brace, other]
    exact ⟨draft.openScope_keywords _ _, fun waiting => absurd rfl waiting⟩
  have waits : Opening.keywords draft.opening = [] := by
    by_contra waiting
    exact brace (awaits waiting)
  by_cases opens : token.opensAnonymous rest = true
  · rw [draft.step_of_opensAnonymous before opens, opens]
    refine ⟨?_, fun _ => ?_⟩
    · show [token.span] ++ draft.anonymousNamespaces =
        [token.span] ++ (Opening.keywords draft.opening ++ draft.anonymousNamespaces)
      rw [waits]
      rfl
    · rw [Token.opensAnonymous, Bool.and_eq_true] at opens
      exact opens.2
  · rw [Bool.not_eq_true] at brace opens
    obtain ⟨same, opening⟩ := draft.step_quiet before token rest opens brace
    have same := (Prod.mk.inj same).2
    have waits' : Opening.keywords (draft.step before token rest).1.opening = [] := by
      rcases opening with unchanged | nothing
      · rw [unchanged, waits]
      · exact nothing
    exact ⟨by simp [keywords, same, waits, waits', opens], fun waiting => absurd waits' waiting⟩

theorem readFrom_keywords (draft : Draft) {before tokens : List Token} :
    draft.Awaits tokens → (draft.readFrom before tokens).keywords =
        (((Token.stops before tokens).filter fun stop => stop.token.opensAnonymous stop.rest).map
          (·.token.span)).reverse ++ draft.keywords ∧
      (draft.readFrom before tokens).Awaits [] := by
  fun_induction Token.stops before tokens generalizing draft with
  | case1 before =>
      intro awaits
      rw [readFrom]
      exact ⟨rfl, awaits⟩
  | case2 before token rest more ih =>
      intro awaits
      obtain ⟨now, awaits⟩ := step_keywords before awaits
      obtain ⟨later, ended⟩ := ih _ awaits
      rw [readFrom_cons, later, now, List.filter_cons]
      refine ⟨?_, ended⟩
      cases token.opensAnonymous rest with
      | true => simp
      | false => simp

/-- Each keyword of an anonymous namespace has its scope. -/
def Marked (draft : Draft) : Prop :=
  draft.kinds.count .anonymous = draft.anonymousNamespaces.length

theorem openScope_marked {draft : Draft} (marked : draft.Marked) (brace : Token) (afterName : Bool) :
    (draft.openScope brace afterName).Marked := by
  have kinds : (draft.openScope brace afterName).kinds =
      draft.kinds ++ [(draft.opening.map Opening.kind).getD .block] := by
    have scopes (bound : Draft) (id : Nat) (kind : ScopeKind) :
        (bound.bindParked id kind afterName).scopes = bound.scopes := by
      unfold bindParked
      split <;> rfl
    have known (opening : Option Opening) : (draft.defineNamespaces opening).scopes = draft.scopes := by
      unfold defineNamespaces
      split <;> rfl
    simp [openScope, Draft.kinds, scopes, known]
  have keywords : (draft.openScope brace afterName).anonymousNamespaces =
      Opening.keywords draft.opening ++ draft.anonymousNamespaces := by
    simp [openScope]
  rw [Marked, kinds, keywords, List.count_append, marked, List.length_append, Nat.add_comm]
  congr 1
  rcases draft.opening with _ | (_ | _ | _ | _ | _) <;> rfl

theorem step_marked {draft : Draft} (marked : draft.Marked) (before : List Token) (token : Token)
    (rest : List Token) : (draft.step before token rest).1.Marked := by
  by_cases brace : token.isPunctuator "\x7b" = true
  · rw [draft.step_of_opensBrace before rest brace]
    exact openScope_marked marked _ _
  by_cases opens : token.opensAnonymous rest = true
  · rw [draft.step_of_opensAnonymous before opens]
    exact marked
  · rw [Bool.not_eq_true] at brace opens
    obtain ⟨same, -⟩ := draft.step_quiet before token rest opens brace
    obtain ⟨kinds, keywords⟩ := Prod.mk.inj same
    rw [Marked, kinds, keywords]
    exact marked

theorem readFrom_marked {draft : Draft} (marked : draft.Marked) (before tokens : List Token) :
    (draft.readFrom before tokens).Marked := by
  fun_induction readFrom draft before tokens with
  | case1 draft before => exact marked
  | case2 draft before token rest next more stepEq ih =>
      have now := step_marked marked before token rest
      rw [stepEq] at now
      exact ih now

end Draft

/-- The anonymous namespaces of an outline are those that reading stops at. -/
theorem Outline.ofText_anonymousNamespaces (text : String) :
    (Outline.ofText text).anonymousNamespaces =
      ((Token.stops [] (tokenize text)).filter fun stop =>
        stop.token.opensAnonymous stop.rest).map (·.token.span) := by
  let draft := (Draft.start (Text.byteLength text.toList)).readFrom [] (tokenize text)
  obtain ⟨keywords, ended⟩ := @Draft.readFrom_keywords
    (Draft.start (Text.byteLength text.toList)) [] (tokenize text) fun waiting => absurd rfl waiting
  have nothing : Opening.keywords draft.opening = [] := by
    by_contra waiting
    exact absurd (ended waiting) (by decide)
  have known : draft.anonymousNamespaces = draft.keywords := by simp [Draft.keywords, nothing]
  have finished : (Outline.ofText text).anonymousNamespaces = draft.anonymousNamespaces.reverse := rfl
  rw [finished, known, keywords]
  simp [Draft.keywords, Draft.start, Opening.keywords]

/-- Where no keyword is known, no scope is an anonymous namespace. -/
theorem Outline.kind_ne_anonymous {text : String}
    (nothing : (Outline.ofText text).anonymousNamespaces = []) (id : Nat) :
    ((Outline.ofText text).scope id).kind ≠ .anonymous := by
  let draft := (Draft.start (Text.byteLength text.toList)).readFrom [] (tokenize text)
  have marked : draft.Marked :=
    Draft.readFrom_marked (show (Draft.start (Text.byteLength text.toList)).Marked from rfl) [] _
  have known : draft.anonymousNamespaces = [] := List.reverse_eq_nil_iff.mp nothing
  rw [Draft.Marked, known, List.length_nil, List.count_eq_zero] at marked
  intro anonymous
  have scopes : (Outline.ofText text).scopes = draft.scopes := rfl
  rw [Outline.scope, scopes, Array.getD_eq_getD_getElem?] at anonymous
  cases found : draft.scopes[id]? with
  | none =>
      rw [found] at anonymous
      exact absurd anonymous (by decide)
  | some scope =>
      rw [found, Option.getD_some] at anonymous
      refine marked (List.mem_map.mpr ⟨scope, ?_, anonymous⟩)
      exact Array.mem_toList_iff.mpr (Array.mem_of_getElem? found)

end Requalify
