import Requalify.Proofs.Outline.Step
import Requalify.Proofs.Outline.Stops

/-!
What stays while no scope opens or closes. A step at a token that is no brace leaves the scopes and the
frames around the current one alone, keeps all bindings, and records mentions for the current scope only.
-/

namespace Requalify

namespace Token

def opensBrace (token : Token) : Bool :=
  token.isPunctuator "\x7b"

def closesBrace (token : Token) : Bool :=
  token.isPunctuator "\x7d"

def isBrace (token : Token) : Bool :=
  token.opensBrace || token.closesBrace

theorem closesBrace_of_opensBrace {token : Token} (opens : token.opensBrace = true) :
    token.closesBrace = false := by
  have text : token.text = "\x7b" := by
    simp only [opensBrace, isPunctuator, Bool.and_eq_true, beq_iff_eq] at opens
    exact opens.2
  simp [closesBrace, isPunctuator, text]

end Token

namespace NameChain

theorem start_of_read? {tokens : List Token} {chain : NameChain} (found : read? tokens = some chain) :
    ∃ first rest, tokens = first :: rest ∧ chain.start = first.start := by
  obtain ⟨front, last, behind, rfl, spelled⟩ := read?_spelled found
  rw [spelled.start]
  cases front with
  | nil => exact ⟨last, behind, rfl, rfl⟩
  | cons first front => exact ⟨first, front ++ last :: behind, rfl, rfl⟩

theorem start_of_taken {tokens : List Token} {chain : NameChain} {skip count : Nat}
    (found : read? (tokens.drop skip) = some chain) (taken : skip < count) :
    ∃ token ∈ tokens.take count, chain.start = token.start := by
  obtain ⟨first, rest, parts, start⟩ := start_of_read? found
  refine ⟨first, List.mem_iff_getElem?.mpr ⟨skip, ?_⟩, start⟩
  rw [List.getElem?_take_of_lt taken, ← List.head?_drop, parts]
  rfl

end NameChain

namespace Draft

/-- What only braces change. -/
def skeleton (draft : Draft) : Nat × Array Scope × (Nat × ScopeKind × NamespacePath) × List Frame :=
  (draft.size, draft.scopes, (draft.frame.scope, draft.frame.kind, draft.frame.path), draft.outer)

@[simp]
theorem bindParked_skeleton (draft : Draft) (id : Nat) (kind : ScopeKind) (afterName : Bool) :
    (draft.bindParked id kind afterName).skeleton = draft.skeleton := by
  unfold bindParked
  split <;> rfl

@[simp]
theorem defineNamespaces_skeleton (draft : Draft) (opening : Option Opening) :
    (draft.defineNamespaces opening).skeleton = draft.skeleton := by
  unfold defineNamespaces
  split <;> rfl

/-- The scope that an opening brace opens. -/
def newScope (draft : Draft) (brace : Token) : Scope :=
  ⟨(draft.opening.map Opening.kind).getD .block, some draft.frame.scope,
    draft.pathOf draft.opening, Span.between brace.start draft.size⟩

theorem newScope_notGlobal (draft : Draft) (brace : Token) : (draft.newScope brace).kind ≠ .global := by
  simp only [newScope]
  rcases draft.opening with - | opening
  · simp
  · cases opening <;> simp [Opening.kind]

theorem openScope_skeleton (draft : Draft) (brace : Token) (afterName : Bool) :
    (draft.openScope brace afterName).skeleton =
      (draft.size, draft.scopes.push (draft.newScope brace),
        (draft.scopes.size, (draft.newScope brace).kind, (draft.newScope brace).path),
        draft.frame :: draft.outer) := by
  have frame (draft : Draft) (id : Nat) (kind : ScopeKind) :
      (draft.bindParked id kind afterName).frame = draft.frame := by
    unfold bindParked
    split <;> rfl
  have frame' (opening : Option Opening) : (draft.defineNamespaces opening).frame = draft.frame := by
    unfold defineNamespaces
    split <;> rfl
  unfold openScope
  dsimp only
  generalize boundEq : (draft.defineNamespaces draft.opening).bindParked draft.scopes.size
      ((draft.opening.map Opening.kind).getD .block) afterName = bound
  have same : bound.skeleton = draft.skeleton := by rw [← boundEq]; simp
  have sameFrame : bound.frame = draft.frame := by rw [← boundEq, frame, frame']
  simp only [skeleton, Prod.mk.injEq] at same
  obtain ⟨size, scopes, -, outer⟩ := same
  simp only [skeleton, size, scopes, outer, sameFrame]
  rfl

/-- The scopes in which the innermost one ends with a closing brace. -/
def endScope (draft : Draft) (brace : Token) : Array Scope :=
  draft.scopes.modify draft.frame.scope fun scope =>
    { scope with span := Span.between scope.span.start brace.stop }

theorem closeScope_of_outer {draft : Draft} {around : Frame} {outer : List Frame}
    (parts : draft.outer = around :: outer) (brace : Token) :
    draft.closeScope brace =
      { draft with scopes := draft.endScope brace, frame := around, outer := outer, opening := none } := by
  simp only [closeScope, parts]
  rfl

theorem closeScope_of_nil {draft : Draft} (file : draft.outer = []) (brace : Token) :
    draft.closeScope brace = { draft with opening := none } := by
  simp only [closeScope, file]

theorem openScope_mentions (draft : Draft) (brace : Token) (afterName : Bool) :
    (draft.openScope brace afterName).mentions = draft.mentions := by
  simp [openScope]

/-- From `draft` to `next` no scope opens or closes, and mentions are new only at tokens of `taken`. -/
structure Stays (draft next : Draft) (taken : List Token) : Prop where
  skeleton : next.skeleton = draft.skeleton
  bindings : draft.bindings <:+ next.bindings
  mentions : ∀ mention ∈ next.mentions, mention ∈ draft.mentions ∨
    mention.scope = draft.frame.scope ∧ ∃ token ∈ taken, mention.chain.start = token.start

namespace Stays

variable {draft next last : Draft} {taken : List Token}

theorem refl (draft : Draft) (taken : List Token) : draft.Stays draft taken :=
  ⟨rfl, List.suffix_refl _, fun _ => .inl⟩

theorem scope (stays : draft.Stays next taken) : next.frame.scope = draft.frame.scope :=
  congrArg (·.2.2.1.1) stays.skeleton

theorem trans (first : draft.Stays next taken) (second : next.Stays last taken) :
    draft.Stays last taken where
  skeleton := second.skeleton.trans first.skeleton
  bindings := first.bindings.trans second.bindings
  mentions mention member := by
    rcases second.mentions mention member with known | ⟨scope, place⟩
    · exact first.mentions mention known
    · exact .inr ⟨scope.trans first.scope, place⟩

end Stays

section Steps

variable (draft : Draft) (taken : List Token)

theorem declare_stays (name : NameToken) (kind : DeclarationKind) :
    draft.Stays (draft.declare name kind) taken := by
  unfold declare
  dsimp only
  split_ifs
  · exact ⟨rfl, List.suffix_refl _, fun _ => .inl⟩
  · exact ⟨rfl, List.suffix_refl _, fun _ => .inl⟩
  · exact ⟨rfl, List.suffix_cons _ _, fun _ => .inl⟩

theorem declareSingle_stays (chain : NameChain) (kind : DeclarationKind) :
    draft.Stays (if chain.isSingle then draft.declare chain.last kind else draft) taken := by
  split
  next => exact draft.declare_stays taken _ _
  next => exact .refl draft taken

theorem declareEnumerator_stays (name : NameToken) :
    draft.Stays (draft.declareEnumerator name) taken := by
  unfold declareEnumerator
  dsimp only
  split
  next =>
    split
    next => exact ⟨rfl, List.suffix_refl _, fun _ => .inl⟩
    next => exact ⟨rfl, List.suffix_cons _ _, fun _ => .inl⟩
  next => exact ⟨rfl, List.suffix_refl _, fun _ => .inl⟩

theorem declareVariable_stays (name : NameToken) (rest : List Token) :
    draft.Stays (draft.declareVariable name rest) taken := by
  have setDeclaring (draft : Draft) (declaring : Option Nat) :
      draft.Stays { draft with frame := { draft.frame with declaring := declaring } } taken :=
    ⟨rfl, List.suffix_refl _, fun _ => .inl⟩
  unfold declareVariable
  dsimp only
  split_ifs
  · exact setDeclaring draft _
  · exact (draft.declare_stays taken name .function).trans (setDeclaring _ _)
  · exact (draft.declare_stays taken name .variable).trans (setDeclaring _ _)

theorem mention_stays {taken : List Token} {chain : NameChain} (lead : MentionLead)
    (place : ∃ token ∈ taken, chain.start = token.start) :
    draft.Stays (draft.mention chain lead) taken where
  skeleton := rfl
  bindings := List.suffix_refl _
  mentions mention member := by
    rcases List.mem_cons.mp member with rfl | known
    · exact .inr ⟨rfl, place⟩
    · exact .inl known

theorem readName_stays {taken : List Token} (before : List Token) {chain : NameChain}
    (rest : List Token) (place : ∃ token ∈ taken, chain.start = token.start) :
    draft.Stays (draft.readName before chain rest) taken := by
  unfold readName
  split_ifs
  · exact draft.declareEnumerator_stays taken _
  · exact .refl draft taken
  · exact draft.declareVariable_stays taken _ _
  all_goals exact draft.mention_stays _ place

theorem finishTypedef_stays (tokens : List Token) : draft.Stays (draft.finishTypedef tokens) taken := by
  unfold finishTypedef
  split
  next => exact .refl draft taken
  next token _ =>
    have fewer : draft.Stays
        { draft with mentions := draft.mentions.filter (·.chain.start != token.start) } taken :=
      ⟨rfl, List.suffix_refl _, fun _ member => .inl (List.mem_filter.mp member).1⟩
    exact fewer.trans (declare_stays _ taken _ _)

theorem endStatement_stays (before : List Token) : draft.Stays (draft.endStatement before) taken := by
  have reset : draft.Stays { draft with frame :=
      { draft.frame with typedefStart := none, declaring := none } } taken :=
    ⟨rfl, List.suffix_refl _, fun _ => .inl⟩
  have clear (draft : Draft) : draft.Stays { draft with opening := none, parked := [] } taken :=
    ⟨rfl, List.suffix_refl _, fun _ => .inl⟩
  unfold endStatement
  dsimp only
  split
  next =>
    split
    next => exact (reset.trans (finishTypedef_stays _ taken _)).trans (clear _)
    next => exact reset.trans (clear _)
  next => exact .refl draft taken

end Steps

section Steps

variable (draft : Draft) (before : List Token) {token : Token} (rest : List Token)

theorem stepName_stays : draft.Stays (draft.stepName before token rest).1
    (token :: rest.take (draft.stepName before token rest).2) := by
  unfold stepName
  split
  next => exact .refl draft _
  next =>
    split
    next => exact .refl draft _
    next chain found =>
      obtain ⟨first, others, parts, start⟩ := NameChain.start_of_read? found
      obtain ⟨rfl, -⟩ := List.cons.inj parts
      exact draft.readName_stays _ _ ⟨token, by simp, start⟩

theorem stepNamespace_stays (taken : List Token) :
    draft.Stays (draft.stepNamespace before token rest).1 taken := by
  have opens (opening : Option Opening) : draft.Stays { draft with opening := opening } taken :=
    ⟨rfl, List.suffix_refl _, fun _ => .inl⟩
  unfold stepNamespace
  dsimp only
  generalize definitionNames _ _ _ _ = found
  obtain ⟨names, count⟩ := found
  dsimp only
  split
  next => exact opens _
  next =>
    split
    next =>
      split_ifs
      · exact ⟨rfl, List.suffix_refl _, fun _ => .inl⟩
      · exact opens _
      · exact .refl draft taken
    next => exact .refl draft taken
    next =>
      split_ifs
      · exact opens _
      · exact .refl draft taken

theorem stepUsing_stays (taken : List Token) :
    draft.Stays (draft.stepUsing token rest).1 taken := by
  unfold stepUsing
  split
  next => exact .refl draft taken
  next =>
    split_ifs
    next =>
      split
      next => exact ⟨rfl, List.suffix_refl _, fun _ => .inl⟩
      next => exact .refl draft taken
    next => exact draft.declare_stays taken _ _
    next => exact .refl draft taken
    all_goals
      dsimp only
      split
      next => split_ifs <;> exact ⟨rfl, List.suffix_refl _, fun _ => .inl⟩
      next => exact .refl draft taken

theorem stepTemplate_stays (taken : List Token) :
    draft.Stays (draft.stepTemplate before token rest).1 taken := by
  unfold stepTemplate
  split
  next => exact ⟨rfl, List.suffix_refl _, fun _ => .inl⟩
  next => exact .refl draft taken

theorem stepRecord_stays : draft.Stays (draft.stepRecord before rest).1
    (token :: rest.take (draft.stepRecord before rest).2) := by
  have opens (draft : Draft) (taken : List Token) (opening : Option Opening) :
      draft.Stays { draft with opening := opening } taken :=
    ⟨rfl, List.suffix_refl _, fun _ => .inl⟩
  simp only [stepRecord]
  split
  next =>
    split
    next => exact opens _ _ _
    next => exact .refl draft _
  next first found =>
    have named := recordName_found found rfl
    split
    next =>
      have size := NameChain.size_pos (recordName (Token.attributesLength 0 rest) first
        (rest.drop (Token.attributesLength 0 rest + first.size))).1
      obtain ⟨place, member, start⟩ := NameChain.start_of_taken named (Nat.lt_add_of_pos_right size)
      exact draft.mention_stays _ ⟨place, List.mem_cons_of_mem _ member, start⟩
    next =>
      split
      next => exact draft.declareSingle_stays _ _ _
      next => exact (draft.declareSingle_stays _ _ _).trans (opens _ _ _)

theorem stepEnumeration_stays : draft.Stays (draft.stepEnumeration rest).1
    (token :: rest.take (draft.stepEnumeration rest).2) := by
  have opens (draft : Draft) (taken : List Token) (opening : Option Opening) :
      draft.Stays { draft with opening := opening } taken :=
    ⟨rfl, List.suffix_refl _, fun _ => .inl⟩
  unfold stepEnumeration
  extract_lets closed lead lead' name? stop after body underlying named opened
  split
  next =>
    have declared (taken : List Token) : draft.Stays named taken := by
      cases found : name? with
      | none => simpa only [named, found] using Stays.refl draft taken
      | some name => simpa only [named, found] using draft.declareSingle_stays taken name .enumeration
    simp only [opened]
    split
    next => exact (declared _).trans (opens _ _ _)
    next => exact declared _
  next =>
    cases found : name? with
    | none => exact .refl draft _
    | some name =>
        have taken : stop = lead' + name.size := by simp [stop, found]
        have size := name.size_pos
        have inside : lead' < stop := by omega
        obtain ⟨place, member, start⟩ := NameChain.start_of_taken found inside
        exact draft.mention_stays _ ⟨place, List.mem_cons_of_mem _ member, start⟩

theorem stepKeyword_stays : draft.Stays (draft.stepKeyword before token rest).1
    (token :: rest.take (draft.stepKeyword before token rest).2) := by
  unfold stepKeyword
  split
  all_goals first
    | exact ⟨rfl, List.suffix_refl _, fun _ => .inl⟩
    | exact stepNamespace_stays ..
    | exact stepUsing_stays ..
    | exact stepTemplate_stays ..
    | exact stepRecord_stays ..
    | exact stepEnumeration_stays ..
    | (split_ifs <;> exact ⟨rfl, List.suffix_refl _, fun _ => .inl⟩)

theorem stepPunctuator_stays (taken : List Token) (opens : token.text ≠ "\x7b")
    (closes : token.text ≠ "\x7d") :
    draft.Stays (draft.stepPunctuator before token rest).1 taken := by
  unfold stepPunctuator
  split
  next text => exact absurd text opens
  next text => exact absurd text closes
  next => exact draft.endStatement_stays taken _
  all_goals first
    | exact ⟨rfl, List.suffix_refl _, fun _ => .inl⟩
    | skip
  split
  next => split_ifs <;> exact ⟨rfl, List.suffix_refl _, fun _ => .inl⟩
  next => exact .refl draft taken

theorem step_of_opensBrace (opens : token.opensBrace = true) : draft.step before token rest =
    (draft.openScope token (Token.startsWithIdentifier before), 0) := by
  obtain ⟨kind, text⟩ : token.kind = .punctuator ∧ token.text = "\x7b" := by
    simpa [Token.opensBrace, Token.isPunctuator] using opens
  simp only [step, kind, stepPunctuator, text]

theorem step_of_closesBrace (closes : token.closesBrace = true) :
    draft.step before token rest = (draft.closeScope token, 0) := by
  obtain ⟨kind, text⟩ : token.kind = .punctuator ∧ token.text = "\x7d" := by
    simpa [Token.closesBrace, Token.isPunctuator] using closes
  simp only [step, kind, stepPunctuator, text]

theorem step_stays (other : token.isBrace = false) : draft.Stays (draft.step before token rest).1
    (token :: rest.take (draft.step before token rest).2) := by
  unfold step
  split
  next => exact draft.stepKeyword_stays before rest
  next => exact draft.stepName_stays before rest
  next => exact draft.stepName_stays before rest
  next kind =>
    simp only [Token.isBrace, Token.opensBrace, Token.closesBrace, Token.isPunctuator, kind,
      Bool.or_eq_false_iff, BEq.rfl, Bool.true_and, beq_eq_false_iff_ne] at other
    exact draft.stepPunctuator_stays before rest _ other.1 other.2
  next => exact .refl draft _
  next => exact .refl draft _

theorem step_size (token : Token) : (draft.step before token rest).1.size = draft.size := by
  by_cases opens : token.opensBrace = true
  · rw [draft.step_of_opensBrace before rest opens]
    exact congrArg (·.1) (draft.openScope_skeleton token _)
  by_cases closes : token.closesBrace = true
  · rw [draft.step_of_closesBrace before rest closes, closeScope]
    split <;> rfl
  · have other : token.isBrace = false := by simp [Token.isBrace, opens, closes]
    exact congrArg (·.1) (draft.step_stays before rest other).skeleton

theorem readFrom_size (tokens : List Token) : (draft.readFrom before tokens).size = draft.size := by
  fun_induction readFrom draft before tokens with
  | case1 => rfl
  | case2 draft before token rest next more stepEq ih =>
      rw [ih, ← draft.step_size before rest token, stepEq]

end Steps

end Draft

end Requalify
