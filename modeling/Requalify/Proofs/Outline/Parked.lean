import Requalify.Proofs.Outline.Passage

/-!
What waits while a head is read. Parameters wait for the body of their function, an opening for its brace,
and a type definition for its semicolon. Braces, semicolons and the keywords of other heads apart, no token
makes any of them go.
-/

namespace Requalify

namespace Token

def headKeywords : List String :=
  ["namespace", "class", "struct", "union", "enum", "extern", "typedef"]

/-- The token neither begins a head nor ends one. -/
def isQuiet (token : Token) : Bool :=
  !token.isBrace && !token.isPunctuator ";" &&
    !(token.kind == .keyword && headKeywords.contains token.text)

/-- How many parentheses are open behind the token. -/
def parensBehind (parens : Nat) (token : Token) : Nat :=
  if token.isPunctuator "(" then parens + 1
  else if token.isPunctuator ")" then parens - 1
  else parens

end Token

namespace Draft

structure Waits (draft next : Draft) (parens : Nat) : Prop where
  opening : next.opening = draft.opening
  typedefStart : next.frame.typedefStart = draft.frame.typedefStart
  parens : next.frame.parens = parens
  parked : draft.parked <:+ next.parked

namespace Waits

variable {draft next last : Draft} {parens : Nat}

theorem refl (draft : Draft) : draft.Waits draft draft.frame.parens :=
  ⟨rfl, rfl, rfl, List.suffix_refl _⟩

theorem trans (first : draft.Waits next next.frame.parens) (second : next.Waits last parens) :
    draft.Waits last parens where
  opening := second.opening.trans first.opening
  typedefStart := second.typedefStart.trans first.typedefStart
  parens := second.parens
  parked := first.parked.trans second.parked

end Waits

section Steps

variable (draft : Draft)

theorem declare_waits (name : NameToken) (kind : DeclarationKind) :
    draft.Waits (draft.declare name kind) draft.frame.parens := by
  unfold declare
  dsimp only
  split_ifs
  · exact ⟨rfl, rfl, rfl, List.suffix_refl _⟩
  · exact ⟨rfl, rfl, rfl, List.suffix_cons _ _⟩
  · exact ⟨rfl, rfl, rfl, List.suffix_refl _⟩

theorem declareEnumerator_waits (name : NameToken) :
    draft.Waits (draft.declareEnumerator name) draft.frame.parens := by
  unfold declareEnumerator
  dsimp only
  split
  next => split <;> exact ⟨rfl, rfl, rfl, List.suffix_refl _⟩
  next => exact ⟨rfl, rfl, rfl, List.suffix_refl _⟩

theorem declareVariable_waits (name : NameToken) (rest : List Token) :
    draft.Waits (draft.declareVariable name rest) draft.frame.parens := by
  have setDeclaring (kind : DeclarationKind) : draft.Waits
      { draft.declare name kind with
        frame := { (draft.declare name kind).frame with declaring := some draft.frame.parens } }
      draft.frame.parens := by
    obtain ⟨opening, typedefStart, parens, parked⟩ := draft.declare_waits name kind
    exact ⟨opening, typedefStart, parens, parked⟩
  unfold declareVariable
  dsimp only
  split_ifs
  · exact ⟨rfl, rfl, rfl, List.suffix_refl _⟩
  · exact setDeclaring .function
  · exact setDeclaring .variable

variable (before : List Token) {token : Token} (rest : List Token)

theorem readName_waits (chain : NameChain) :
    draft.Waits (draft.readName before chain rest) draft.frame.parens := by
  unfold readName
  split_ifs
  · exact draft.declareEnumerator_waits _
  · exact .refl draft
  · exact draft.declareVariable_waits _ _
  all_goals exact ⟨rfl, rfl, rfl, List.suffix_refl _⟩

theorem stepName_waits : draft.Waits (draft.stepName before token rest).1 draft.frame.parens := by
  unfold stepName
  split
  next => exact .refl draft
  next =>
    split
    next => exact .refl draft
    next => exact draft.readName_waits _ _ _

theorem stepUsing_waits : draft.Waits (draft.stepUsing token rest).1 draft.frame.parens := by
  unfold stepUsing
  split
  next => exact .refl draft
  next =>
    split_ifs
    next => split <;> exact ⟨rfl, rfl, rfl, List.suffix_refl _⟩
    next => exact draft.declare_waits _ _
    next => exact .refl draft
    all_goals
      dsimp only
      split
      next => split_ifs <;> exact ⟨rfl, rfl, rfl, List.suffix_refl _⟩
      next => exact .refl draft

theorem readTemplate_parked (depth parens count : Nat) (parked : List (String × Nat))
    (before tokens : List Token) :
    parked <:+ (readTemplate depth parens count parked before tokens).1 := by
  induction tokens generalizing depth parens count parked before with
  | nil => exact List.suffix_refl _
  | cons token rest ih =>
      simp only [readTemplate]
      split_ifs
      all_goals first
        | exact List.suffix_refl _
        | exact ih _ _ _ _ _
        | exact (List.suffix_cons _ _).trans (ih _ _ _ _ _)

theorem stepTemplate_waits : draft.Waits (draft.stepTemplate before token rest).1 draft.frame.parens := by
  unfold stepTemplate
  split
  next => exact ⟨rfl, rfl, rfl, readTemplate_parked ..⟩
  next => exact .refl draft

theorem stepKeyword_waits (quiet : Token.headKeywords.contains token.text = false) :
    draft.Waits (draft.stepKeyword before token rest).1 draft.frame.parens := by
  unfold stepKeyword
  split
  all_goals first
    | exact .refl draft
    | exact stepUsing_waits ..
    | exact stepTemplate_waits ..
    | simp_all [Token.headKeywords]

theorem stepPunctuator_waits (isPunctuator : token.kind = .punctuator) (opens : token.text ≠ "\x7b")
    (closes : token.text ≠ "\x7d") (ends : token.text ≠ ";") :
    draft.Waits (draft.stepPunctuator before token rest).1 (token.parensBehind draft.frame.parens) := by
  have other (notOpen : token.text ≠ "(") (notClose : token.text ≠ ")") :
      token.parensBehind draft.frame.parens = draft.frame.parens := by
    simp [Token.parensBehind, Token.isPunctuator, notOpen, notClose]
  unfold stepPunctuator
  split
  next text => exact absurd text opens
  next text => exact absurd text closes
  next text => exact absurd text ends
  next text =>
    have parens : token.parensBehind draft.frame.parens = draft.frame.parens + 1 := by
      simp [Token.parensBehind, Token.isPunctuator, isPunctuator, text]
    rw [parens]
    exact ⟨rfl, rfl, rfl, List.suffix_refl _⟩
  next text =>
    have parens : token.parensBehind draft.frame.parens = draft.frame.parens - 1 := by
      simp [Token.parensBehind, Token.isPunctuator, isPunctuator, text]
    rw [parens]
    exact ⟨rfl, rfl, rfl, List.suffix_refl _⟩
  case h_12 text =>
    rw [other (by simp [text]) (by simp [text])]
    split
    next => split_ifs <;> exact ⟨rfl, rfl, rfl, List.suffix_refl _⟩
    next => exact .refl draft
  case h_13 =>
    rw [other (by assumption) (by assumption)]
    exact .refl draft
  all_goals
    rw [other (by simp [*]) (by simp [*])]
    exact .refl draft

theorem step_waits (quiet : token.isQuiet = true) :
    draft.Waits (draft.step before token rest).1 (token.parensBehind draft.frame.parens) := by
  have other (notMark : token.kind ≠ .punctuator) :
      token.parensBehind draft.frame.parens = draft.frame.parens := by
    simp [Token.parensBehind, Token.isPunctuator, notMark]
  simp only [Token.isQuiet, Token.isBrace, Token.opensBrace, Token.closesBrace, Bool.and_eq_true,
    Bool.not_eq_true', Bool.or_eq_false_iff, Bool.and_eq_false_iff] at quiet
  obtain ⟨⟨⟨opens, closes⟩, ends⟩, head⟩ := quiet
  unfold step
  split
  next kind =>
    rw [other (by simp [kind])]
    refine draft.stepKeyword_waits before rest ?_
    simpa [kind] using head
  next kind =>
    rw [other (by simp [kind])]
    exact draft.stepName_waits before rest
  next kind =>
    rw [other (by simp [kind])]
    exact draft.stepName_waits before rest
  next kind =>
    simp only [Token.isPunctuator, kind, BEq.rfl, Bool.true_and, beq_eq_false_iff_ne] at opens closes ends
    exact draft.stepPunctuator_waits before rest kind opens closes ends
  next kind =>
    rw [other (by simp [kind])]
    exact .refl draft
  next kind =>
    rw [other (by simp [kind])]
    exact .refl draft

end Steps

end Draft

end Requalify
