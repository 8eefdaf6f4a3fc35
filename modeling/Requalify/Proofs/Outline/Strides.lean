import Mathlib.Data.List.Chain
import Requalify.Proofs.Outline.Parked

/-!
Steps at plain tokens. Such a step takes no more than names behind `::`, so that a name which follows
anything else is read by a step of its own.
-/

namespace Requalify

namespace Token

/-- The marks in front of the name of a member. -/
def selectsMember (token : Token) : Bool :=
  token.kind == .punctuator && [".", "->", ".*", "->*", "~"].contains token.text

def leadsName (token : Token) : Bool :=
  token.isScope || token.selectsMember || token.isKeyword "template"

/-- The token may be taken by the step that has taken the one in front of it. -/
def Continues (left right : Token) : Prop :=
  right.isScope = true ∨ left.leadsName = true

def isParen (token : Token) : Bool :=
  token.isPunctuator "(" || token.isPunctuator ")"

theorem parensBehind_of_other {token : Token} (other : token.isParen = false) (parens : Nat) :
    token.parensBehind parens = parens := by
  rw [isParen, Bool.or_eq_false_iff] at other
  simp [parensBehind, other]

/-- A step at the token takes names at most. -/
def isPlain (token : Token) : Bool :=
  token.isQuiet &&
    match token.kind with
    | .keyword =>
        !(["using", "template", "operator", "goto", "public", "private", "protected"].contains token.text)
    | .punctuator => token.text != "["
    | _ => true

theorem isQuiet_of_isPlain {token : Token} (plain : token.isPlain = true) : token.isQuiet = true :=
  (Bool.and_eq_true_iff.mp plain).1

theorem isParen_of_isIdentifier {token : Token} (isName : token.isIdentifier = true) :
    token.isParen = false := by
  simp [isParen, isPunctuator, kind_of_isIdentifier isName]

theorem isParen_of_isScope {token : Token} (isSeparator : token.isScope = true) :
    token.isParen = false := by
  simp [isParen, isPunctuator, kind_of_isScope isSeparator]

theorem leadsName_of_isScope {token : Token} (isSeparator : token.isScope = true) :
    token.leadsName = true := by
  simp [leadsName, isSeparator]

/-- Tokens that one step takes behind its own. -/
structure Taken (first : Token) (tokens : List Token) : Prop where
  chain : (first :: tokens).IsChain Continues
  noParen : ∀ token ∈ tokens, token.isParen = false

namespace Taken

theorem nil (first : Token) : Taken first [] :=
  ⟨List.isChain_singleton first, by simp⟩

theorem cons {first second : Token} {tokens : List Token} (continues : Continues first second)
    (noParen : second.isParen = false) (taken : Taken second tokens) :
    Taken first (second :: tokens) :=
  ⟨List.isChain_cons_cons.mpr ⟨continues, taken.chain⟩, List.forall_mem_cons.mpr ⟨noParen, taken.noParen⟩⟩

theorem of_pairs {first : Token} {pairs : List (Token × Token)} {last : Token}
    (valid : ∀ pair ∈ pairs, pair.1.isIdentifier = true ∧ pair.2.isScope = true)
    (isName : last.isIdentifier = true) (leads : first.leadsName = true) :
    Taken first (pairs.flatMap (fun pair => [pair.1, pair.2]) ++ [last]) := by
  induction pairs generalizing first with
  | nil => exact cons (.inr leads) (isParen_of_isIdentifier isName) (.nil last)
  | cons pair pairs ih =>
      obtain ⟨⟨name, separator⟩, others⟩ := List.forall_mem_cons.mp valid
      apply cons (.inr leads) (isParen_of_isIdentifier name)
      apply cons (.inl separator) (isParen_of_isScope separator)
      exact ih others (leadsName_of_isScope separator)

/-- The tokens of a name chain behind its first. -/
theorem of_layout {layout : NameChain.Layout} (valid : layout.Valid) {first : Token} {tokens : List Token}
    (parts : layout.front ++ [layout.last] = first :: tokens) : Taken first tokens := by
  obtain ⟨lead, pairs, last⟩ := layout
  obtain ⟨separator, names, isName⟩ := valid
  dsimp only at separator names isName
  rcases lead with - | lead
  · rcases pairs with - | ⟨pair, pairs⟩
    · obtain ⟨rfl, rfl⟩ : last = first ∧ [] = tokens := by simpa [NameChain.Layout.front] using parts
      exact .nil last
    · obtain ⟨⟨-, isSeparator⟩, others⟩ := List.forall_mem_cons.mp names
      simp only [NameChain.Layout.front, Option.toList_none, List.nil_append, List.flatMap_cons,
        List.cons_append, List.cons.injEq] at parts
      obtain ⟨rfl, rfl⟩ := parts
      exact cons (.inl isSeparator) (isParen_of_isScope isSeparator)
        (of_pairs others isName (leadsName_of_isScope isSeparator))
  · simp only [NameChain.Layout.front, Option.toList_some, List.cons_append, List.nil_append,
      List.cons.injEq] at parts
    obtain ⟨rfl, rfl⟩ := parts
    exact of_pairs names isName (leadsName_of_isScope (separator lead rfl))

/-- What may stand in front of a member name, and what follows it. -/
theorem of_lead {first : Token} (leads : first.leadsName = true) (tokens : List Token) {more : List Token}
    (others : ∀ first, first.leadsName = true → Taken first more) :
    Taken first (tokens.take (memberLeadLength tokens) ++ more) := by
  have tilde {first : Token} (leads : first.leadsName = true) (tokens : List Token) :
      Taken first (tokens.take (if startsWith tokens "~" then 1 else 0) ++ more) := by
    split
    next isTilde =>
      cases tokens with
      | nil => exact others first leads
      | cons token rest =>
          have mark : token.isPunctuator "~" = true := isTilde
          have isTilde : token.text = "~" := (Bool.and_eq_true_iff.mp mark).2 |> beq_iff_eq.mp
          apply cons (.inr leads)
          · simp [isParen, isPunctuator, isTilde]
          · exact others token (by simp [leadsName, selectsMember, kind_of_isPunctuator mark, isTilde])
    next => exact others first leads
  unfold memberLeadLength
  split
  next isTemplate =>
    cases tokens with
    | nil => exact others first leads
    | cons token rest =>
        have keyword : token.isKeyword "template" = true := isTemplate
        obtain ⟨kind, text⟩ : token.kind = .keyword ∧ token.text = "template" := by
          simpa [isKeyword] using keyword
        rw [Nat.add_comm, List.take_succ_cons]
        apply cons (.inr leads)
        · simp [isParen, isPunctuator, kind]
        · exact tilde (by simp [leadsName, keyword]) rest
  next =>
    rw [Nat.zero_add, List.drop_zero]
    exact tilde leads tokens

theorem of_dependent (count : Nat) (tokens : List Token) :
    ∃ length, dependentLength count tokens = count + length ∧
      ∀ first, Taken first (tokens.take length) := by
  fun_induction dependentLength count tokens with
  | case1 count => exact ⟨0, rfl, fun first => .nil first⟩
  | case2 count separator rest isSeparator lead name after found isName ih =>
      obtain ⟨length, lengthEq, taken⟩ := ih
      refine ⟨lead + 2 + length, by omega, fun first => ?_⟩
      have parts : (separator :: rest).take (lead + 2 + length) =
          separator :: (rest.take lead ++ name :: after.take length) := by
        rw [show lead + 2 + length = lead + (length + 1) + 1 by omega, List.take_succ_cons, List.take_add,
          found, List.take_succ_cons]
      rw [parts]
      apply cons (.inl isSeparator) (isParen_of_isScope isSeparator)
      apply of_lead (leadsName_of_isScope isSeparator)
      intro previous leads
      exact cons (.inr leads) (isParen_of_isIdentifier isName) (taken name)
  | case3 count separator rest isSeparator lead name after found notName =>
      refine ⟨lead + 1, by omega, fun first => ?_⟩
      apply cons (.inl isSeparator) (isParen_of_isScope isSeparator)
      simpa using of_lead (leadsName_of_isScope isSeparator) rest fun first _ => Taken.nil first
  | case4 count separator rest isSeparator lead found =>
      refine ⟨lead + 1, by omega, fun first => ?_⟩
      apply cons (.inl isSeparator) (isParen_of_isScope isSeparator)
      simpa using of_lead (leadsName_of_isScope isSeparator) rest fun first _ => Taken.nil first
  | case5 => exact ⟨0, rfl, fun first => .nil first⟩

theorem of_scopedNames (first : Token) (tokens : List Token) :
    Taken first (tokens.take (scopedNamesLength tokens)) := by
  fun_induction scopedNamesLength tokens generalizing first with
  | case1 separator name rest isPair ih =>
      obtain ⟨isSeparator, isName⟩ := Bool.and_eq_true_iff.mp isPair
      rw [Nat.add_comm, List.take_succ_cons, List.take_succ_cons]
      apply cons (.inl isSeparator) (isParen_of_isScope isSeparator)
      exact cons (.inr (leadsName_of_isScope isSeparator)) (isParen_of_isIdentifier isName) (ih name)
  | case2 => exact .nil first
  | case3 => exact .nil first

theorem of_member {first : Token} (leads : first.leadsName = true) (tokens : List Token) :
    Taken first (tokens.take (memberLength tokens)) := by
  have short : Taken first (tokens.take (memberLeadLength tokens)) := by
    simpa using of_lead leads tokens fun first _ => Taken.nil first
  unfold memberLength
  dsimp only
  split
  next name rest found =>
    split
    next isName =>
      rw [Nat.add_assoc, List.take_add, found, Nat.add_comm 1, List.take_succ_cons]
      apply of_lead leads
      intro previous leads
      exact cons (.inr leads) (isParen_of_isIdentifier isName) (of_scopedNames name rest)
    next => exact short
  next => exact short

theorem tail {first second : Token} {tokens : List Token} (taken : Taken first (second :: tokens)) :
    Taken second tokens :=
  ⟨(List.isChain_cons_cons.mp taken.chain).2, (List.forall_mem_cons.mp taken.noParen).2⟩

end Taken

variable (draft : Draft) (before : List Token) {token : Token} (rest : List Token)

theorem stepName_taken : Taken token (rest.take (draft.stepName before token rest).2) := by
  unfold Draft.stepName
  split
  next =>
    obtain ⟨length, lengthEq, taken⟩ := Taken.of_dependent 0 (token :: rest)
    rw [lengthEq, Nat.zero_add]
    cases length with
    | zero => exact .nil token
    | succ length => exact (taken token).tail
  next =>
    split
    next => exact .nil token
    next chain found =>
      obtain ⟨front, last, behind, parts, spelled⟩ := NameChain.read?_spelled found
      obtain ⟨layout, valid, -, rfl, rfl⟩ := spelled.layout
      have whole : layout.front ++ [layout.last] = token :: rest.take (chain.size - 1) := by
        have prefixEq := congrArg (List.take chain.size) parts
        rw [spelled.size, List.take_succ_cons] at prefixEq
        rw [spelled.size, Nat.add_sub_cancel, prefixEq, List.take_length_add_append]
        rfl
      exact Taken.of_layout valid whole

theorem stride_of_punctuator (isMark : token.kind = .punctuator) (notMember : token.selectsMember = false)
    (notSquare : token.text ≠ "[") : stride before token rest = 0 := by
  simp only [selectsMember, isMark, BEq.rfl, Bool.true_and] at notMember
  simp only [stride, Draft.step, isMark]
  unfold Draft.stepPunctuator
  split
  all_goals first
    | rfl
    | simp_all

theorem stepPunctuator_taken (isMark : token.kind = .punctuator) (isMember : token.selectsMember = true) :
    Taken token (rest.take (stride before token rest)) := by
  have leads : token.leadsName = true := by simp [leadsName, isMember]
  simp only [selectsMember, isMark, BEq.rfl, Bool.true_and, List.contains_cons, List.contains_nil,
    Bool.or_false, Bool.or_eq_true, beq_iff_eq] at isMember
  simp only [stride, Draft.step, isMark]
  rcases isMember with text | text | text | text | text
  all_goals simp only [Draft.stepPunctuator, text]
  all_goals first
    | exact .of_member leads rest
    | skip
  split
  next found =>
    cases rest with
    | nil => exact .nil token
    | cons name rest =>
        have isName : name.isIdentifier = true := (Bool.and_eq_true_iff.mp found).1
        exact .cons (.inr leads) (isParen_of_isIdentifier isName) (.nil name)
  next => exact .nil token

theorem stride_taken (plain : token.isPlain = true) :
    Taken token (rest.take (stride before token rest)) := by
  have alone (noMore : stride before token rest = 0) :
      Taken token (rest.take (stride before token rest)) := by
    rw [noMore]
    exact .nil token
  cases kind : token.kind with
  | keyword =>
      apply alone
      simp only [isPlain, isQuiet, kind, Bool.and_eq_true, Bool.not_eq_true'] at plain
      obtain ⟨⟨-, head⟩, other⟩ := plain
      simp only [stride, Draft.step, kind]
      unfold Draft.stepKeyword
      split
      all_goals first
        | rfl
        | simp_all [headKeywords]
  | identifier =>
      simp only [stride, Draft.step, kind]
      exact stepName_taken _ before rest
  | scope =>
      simp only [stride, Draft.step, kind]
      exact stepName_taken _ before rest
  | punctuator =>
      by_cases isMember : token.selectsMember = true
      · exact stepPunctuator_taken before rest kind isMember
      · simp only [isPlain, kind, Bool.and_eq_true, bne_iff_ne] at plain
        exact alone (stride_of_punctuator before rest kind (Bool.eq_false_iff.mpr isMember) plain.2)
  | number =>
      apply alone
      simp only [stride, Draft.step, kind]
  | literal =>
      apply alone
      simp only [stride, Draft.step, kind]

theorem foldl_parensBehind {tokens : List Token} (noParen : ∀ token ∈ tokens, token.isParen = false)
    (parens : Nat) : tokens.foldl parensBehind parens = parens := by
  induction tokens with
  | nil => rfl
  | cons token tokens ih =>
      obtain ⟨other, others⟩ := List.forall_mem_cons.mp noParen
      rw [List.foldl_cons, parensBehind_of_other other, ih others]

end Token

namespace Draft

/-- Reading goes on to `next` and past `tokens`, and what waits goes on waiting. -/
structure Passes (draft : Draft) (before tokens left : List Token) (next : Draft) : Prop where
  goes : Goes draft before (tokens ++ left) next (tokens.reverse ++ before) left
  waits : draft.Waits next (tokens.foldl Token.parensBehind draft.frame.parens)
  skeleton : next.skeleton = draft.skeleton

namespace Passes

variable {draft next last : Draft} {before tokens others left : List Token}

theorem refl (draft : Draft) (before left : List Token) : draft.Passes before [] left draft :=
  ⟨.stay _ _ _, .refl draft, rfl⟩

theorem kind (passes : draft.Passes before tokens left next) : next.frame.kind = draft.frame.kind :=
  congrArg (·.2.2.1.2.1) passes.skeleton

theorem parens (passes : draft.Passes before tokens left next) :
    next.frame.parens = tokens.foldl Token.parensBehind draft.frame.parens :=
  passes.waits.parens

theorem trans (first : draft.Passes before tokens (others ++ left) next)
    (second : next.Passes (tokens.reverse ++ before) others left last) :
    draft.Passes before (tokens ++ others) left last where
  goes := by
    have goes := first.goes.trans second.goes
    simpa using goes
  waits := by
    rw [List.foldl_append, ← first.parens]
    have waits := first.waits
    rw [← first.parens] at waits
    exact waits.trans second.waits
  skeleton := second.skeleton.trans first.skeleton

/-- A single step. -/
theorem of_step {token : Token} (quiet : token.isQuiet = true)
    (taken : Token.stride before token (tokens ++ left) = tokens.length)
    (noParen : ∀ token ∈ tokens, token.isParen = false) :
    draft.Passes before (token :: tokens) left (draft.step before token (tokens ++ left)).1 where
  goes := by
    have stay := Goes.stay (draft.step before token (tokens ++ left)).1
      ((token :: tokens).reverse ++ before) left
    rw [List.cons_append]
    apply Goes.step
    rw [taken, List.take_left, List.drop_left]
    simpa using stay
  waits := by
    rw [List.foldl_cons, Token.foldl_parensBehind noParen]
    exact draft.step_waits before (tokens ++ left) quiet
  skeleton := by
    have other : token.isBrace = false := by
      simp only [Token.isQuiet, Bool.and_eq_true, Bool.not_eq_true'] at quiet
      exact quiet.1.1
    exact (draft.step_stays before _ other).skeleton

/-- A token that no plain token in front of it takes is reached by a step of its own. -/
theorem of_plain {stop : Token} {tokens : List Token} (plain : ∀ token ∈ tokens, token.isPlain = true)
    (notScope : stop.isScope = false) (notLead : ∀ token ∈ tokens.getLast?, token.leadsName = false)
    (draft : Draft) (before left : List Token) :
    ∃ next, draft.Passes before tokens (stop :: left) next := by
  induction lengthEq : tokens.length using Nat.strongRecOn generalizing tokens draft before with
  | ind length ih =>
      cases tokens with
      | nil => exact ⟨draft, .refl draft before _⟩
      | cons token rest =>
          obtain ⟨isPlain, others⟩ := List.forall_mem_cons.mp plain
          have taken := Token.stride_taken before (rest ++ stop :: left) isPlain
          generalize moreEq : Token.stride before token (rest ++ stop :: left) = more at taken
          have short : more ≤ rest.length := by
            by_contra far
            -- Otherwise the step would take the stop behind the last token.
            obtain ⟨extra, rfl⟩ := Nat.exists_eq_add_of_lt (Nat.lt_of_not_le far)
            rw [show rest.length + extra + 1 = rest.length + (extra + 1) by omega,
              List.take_length_add_append, List.take_succ_cons] at taken
            have chain := taken.chain
            rw [← List.cons_append] at chain
            obtain ⟨last, lastEq⟩ := Option.isSome_iff_exists.mp
              (List.getLast?_isSome.mpr (List.cons_ne_nil token rest))
            rcases (List.isChain_append.mp chain).2.2 last lastEq stop rfl with isScope | leads
            · simp [notScope] at isScope
            · simp [notLead last lastEq] at leads
          obtain ⟨middle, back, rfl, rfl⟩ : ∃ middle back, rest = middle ++ back ∧ middle.length = more :=
            ⟨rest.take more, rest.drop more, (List.take_append_drop more rest).symm,
              List.length_take_of_le short⟩
          rw [List.append_assoc, List.take_left] at taken
          rw [List.append_assoc] at moreEq
          have first := @of_step draft _ _ _ _ (Token.isQuiet_of_isPlain isPlain) moreEq taken.noParen
          obtain ⟨next, further⟩ := ih back.length (by simp at lengthEq; omega)
            (fun token member => others token (List.mem_append_right middle member))
            (fun last lastEq => notLead last (by
              rw [← List.cons_append, List.getLast?_append, lastEq]
              rfl)) _ _ rfl
          exact ⟨next, first.trans further⟩

end Passes

end Draft

end Requalify
