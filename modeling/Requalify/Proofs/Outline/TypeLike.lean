import Requalify.Proofs.Outline.Elaborated

/-!
Types in front of parameter names. A type is told by its end: a name, a type keyword or template arguments
behind a name, perhaps with `const`, `*` and the like behind them. Whatever may stand in front of these is
passed over.
-/

namespace Requalify.Token

def isBracket (token : Token) : Bool :=
  token.isParen || token.isPunctuator "<" || token.isPunctuator ">"

def pairsWith (first last : Token) : Bool :=
  first.isPunctuator "(" && last.isPunctuator ")" || first.isPunctuator "<" && last.isPunctuator ">"

/-- Parentheses and angle brackets stand in pairs. -/
inductive Grouped : List Token → Prop
  | nil : Grouped []
  | plain {token : Token} {rest : List Token} (isPlain : token.isPlain = true)
      (notBracket : token.isBracket = false) (others : Grouped rest) : Grouped (token :: rest)
  | group {first last : Token} {inner rest : List Token} (pairs : first.pairsWith last = true)
      (inside : Grouped inner) (others : Grouped rest) : Grouped (first :: (inner ++ last :: rest))

/-- The token stands behind a type and belongs to it. -/
def decoratesType (token : Token) : Bool :=
  token.isConstancy || token.isIndirection || token.isPunctuator "..."

/-- The tokens end as a type does. -/
inductive TypeEnd : List Token → Prop
  | name {front : List Token} {name : Token} (isName : name.isIdentifier = true) :
      TypeEnd (front ++ [name])
  | keyword {front : List Token} {keyword : Token} (isKeyword : keyword.kind = .keyword)
      (isType : keyword.text ∈ typeKeywords) : TypeEnd (front ++ [keyword])
  | template {front arguments : List Token} {name first last : Token}
      (isName : name.isIdentifier = true) (opens : first.isPunctuator "<" = true)
      (inside : Grouped arguments) (closes : last.isPunctuator ">" = true) :
      TypeEnd (front ++ name :: first :: (arguments ++ [last]))
  | decorated {type : List Token} {mark : Token} (ends : TypeEnd type)
      (decorates : mark.decoratesType = true) : TypeEnd (type ++ [mark])

/-- Tokens that may be a type. An elaborated type is one with a keyword in front of its name. -/
inductive TypeLike : List Token → Prop
  | grouped {tokens : List Token} (grouped : Grouped tokens) (ends : TypeEnd tokens) : TypeLike tokens
  | elaborated {front marks : List Token} {keyword : Token} {layout : NameChain.Layout}
      (constancy : ∀ token ∈ front, token.isConstancy = true) (isKeyword : keyword.kind = .keyword)
      (elaborates : keyword.text ∈ ["class", "struct", "union", "enum"]) (valid : layout.Valid)
      (decorate : ∀ token ∈ marks, token.decoratesType = true) :
      TypeLike (front ++ keyword :: (layout.tokens ++ marks))

section Marks

variable {token : Token} {text : String}

theorem isPlain_of_isPunctuator (isMark : token.isPunctuator text = true)
    (other : ["\x7b", "\x7d", ";", "["].contains text = false) :
    token.isPlain = true := by
  obtain ⟨kind, rfl⟩ : token.kind = .punctuator ∧ token.text = text := by
    simpa [isPunctuator] using isMark
  simp only [List.contains_cons, Bool.or_eq_false_iff] at other
  simp_all [isPlain, isQuiet, isBrace, opensBrace, closesBrace, isPunctuator]

theorem isPlain_of_isIdentifier (isName : token.isIdentifier = true) : token.isPlain = true := by
  have kind := kind_of_isIdentifier isName
  simp [isPlain, isQuiet, isBrace, opensBrace, closesBrace, isPunctuator, kind]

theorem not_selectsMember_of_isPunctuator (isMark : token.isPunctuator text = true)
    (other : [".", "->", ".*", "->*", "~"].contains text = false) : token.selectsMember = false := by
  obtain ⟨kind, rfl⟩ : token.kind = .punctuator ∧ token.text = text := by
    simpa [isPunctuator] using isMark
  rw [selectsMember, other, Bool.and_false]

theorem stride_of_isPunctuator (before rest : List Token) (isMark : token.isPunctuator text = true)
    (other : ["[", ".", "->", ".*", "->*", "~"].contains text = false) : stride before token rest = 0 := by
  rw [List.contains_cons, Bool.or_eq_false_iff, beq_eq_false_iff_ne] at other
  apply stride_of_punctuator before rest (kind_of_isPunctuator isMark)
    (not_selectsMember_of_isPunctuator isMark other.2)
  exact beq_iff_eq.mp (Bool.and_eq_true_iff.mp isMark).2 ▸ other.1

theorem leadsName_of_isIdentifier (isName : token.isIdentifier = true) : token.leadsName = false := by
  have kind := kind_of_isIdentifier isName
  simp [leadsName, isScope, selectsMember, isKeyword, kind]

end Marks

theorem pairsWith_cases {first last : Token} (pairs : first.pairsWith last = true) :
    first.isPunctuator "(" = true ∧ last.isPunctuator ")" = true ∨
      first.isPunctuator "<" = true ∧ last.isPunctuator ">" = true := by
  simpa [pairsWith] using pairs

namespace Grouped

variable {tokens : List Token}

theorem isPlain (grouped : Grouped tokens) : ∀ token ∈ tokens, token.isPlain = true := by
  induction grouped with
  | nil => simp
  | plain isPlain _ _ ih => exact List.forall_mem_cons.mpr ⟨isPlain, ih⟩
  | group pairs _ _ inside others =>
      rw [List.forall_mem_cons, List.forall_mem_append, List.forall_mem_cons]
      obtain ⟨opens, closes⟩ | ⟨opens, closes⟩ := pairsWith_cases pairs
      all_goals
        exact ⟨isPlain_of_isPunctuator opens (by decide), inside,
          isPlain_of_isPunctuator closes (by decide), others⟩

theorem foldl_parensBehind (grouped : Grouped tokens) (parens : Nat) :
    tokens.foldl parensBehind parens = parens := by
  induction grouped generalizing parens with
  | nil => rfl
  | plain _ notBracket _ ih =>
      simp only [isBracket, Bool.or_eq_false_iff] at notBracket
      rw [List.foldl_cons, parensBehind_of_other notBracket.1.1, ih]
  | group pairs _ _ inside others =>
      rw [List.foldl_cons, List.foldl_append, List.foldl_cons, inside, others]
      obtain ⟨opens, closes⟩ | ⟨opens, closes⟩ := pairsWith_cases pairs
      · simp [parensBehind, opens, closes, not_isPunctuator_of_isPunctuator closes]
      · simp [parensBehind, not_isPunctuator_of_isPunctuator opens, not_isPunctuator_of_isPunctuator closes]

theorem append {others : List Token} (first : Grouped tokens) (second : Grouped others) :
    Grouped (tokens ++ others) := by
  induction first with
  | nil => exact second
  | plain isPlain notBracket _ ih => exact .plain isPlain notBracket ih
  | group pairs inside _ _ ih =>
      rw [List.cons_append, List.append_assoc, List.cons_append]
      exact .group pairs inside ih

theorem single {token : Token} (isPlain : token.isPlain = true) (notBracket : token.isBracket = false) :
    Grouped [token] :=
  .plain isPlain notBracket .nil

/-- Inside template arguments groups are passed over as a whole. -/
theorem closesTemplate (grouped : Grouped tokens) {depth parens : Nat} (inside : 0 < depth ∨ 0 < parens)
    (before : List Token) :
    closesTemplate depth parens (tokens.reverse ++ before) = Token.closesTemplate depth parens before := by
  induction grouped generalizing depth parens before with
  | nil => rfl
  | @plain token rest isPlain notBracket _ ih =>
      simp only [isBracket, isParen, Bool.or_eq_false_iff] at notBracket
      simp only [Token.isPlain, isQuiet, isBrace, opensBrace, closesBrace, Bool.and_eq_true,
        Bool.not_eq_true', Bool.or_eq_false_iff] at isPlain
      rw [List.reverse_cons, List.append_assoc, ih inside, List.singleton_append, Token.closesTemplate]
      simp [notBracket, isPlain]
  | @group first last inner rest pairs _ _ inner others =>
      rw [List.reverse_cons, List.reverse_append, List.reverse_cons, List.append_assoc, List.append_assoc,
        List.append_assoc, others inside, List.singleton_append, List.singleton_append,
        Token.closesTemplate]
      obtain ⟨opens, closes⟩ | ⟨opens, closes⟩ := pairsWith_cases pairs
      · rw [if_pos closes, inner (.inr (Nat.succ_pos _)), Token.closesTemplate]
        simp [opens, not_isPunctuator_of_isPunctuator opens]
      · simp only [not_isPunctuator_of_isPunctuator closes, Bool.false_eq_true, if_false, closes, if_true,
          ne_eq, String.reduceEq, not_false_eq_true]
        by_cases inParens : 0 < parens
        · rw [if_pos inParens, inner (.inr inParens), Token.closesTemplate]
          simp [inParens, not_isPunctuator_of_isPunctuator opens]
        · rw [if_neg inParens, inner (.inl (Nat.succ_pos _)), Token.closesTemplate]
          have nested : ¬depth + 1 ≤ 1 := by omega
          simp [inParens, nested, opens, not_isPunctuator_of_isPunctuator opens]

end Grouped

/-! The last token of a type. -/

section Last

variable {token : Token}

theorem decoratesType_cases (decorates : token.decoratesType = true) :
    token.kind = .keyword ∧ (token.text = "const" ∨ token.text = "volatile") ∨
      token.kind = .punctuator ∧ token.text ∈ ["*", "&", "&&", "..."] := by
  simp only [decoratesType, isConstancy, isIndirection, isKeyword, isPunctuator, Bool.or_eq_true,
    Bool.and_eq_true, beq_iff_eq] at decorates
  simp only [List.mem_cons, List.not_mem_nil, or_false]
  tauto

theorem decoratesType_of_isConstancy (constancy : token.isConstancy = true) :
    token.decoratesType = true := by
  simp [decoratesType, constancy]

theorem grouped_of_decoratesType (decorates : token.decoratesType = true) : Grouped [token] := by
  rcases decoratesType_cases decorates with ⟨kind, text⟩ | ⟨kind, text⟩
  · apply Grouped.single
    · rcases text with text | text
      all_goals
        simp [isPlain, isQuiet, isBrace, opensBrace, closesBrace, isPunctuator, headKeywords, kind, text]
    · simp [isBracket, isParen, isPunctuator, kind]
  · simp only [List.mem_cons, List.not_mem_nil, or_false] at text
    apply Grouped.single
    · have isMark : token.isPunctuator token.text = true := by simp [isPunctuator, kind]
      apply isPlain_of_isPunctuator isMark
      rcases text with text | text | text | text
      all_goals
        rw [text]
        decide
    · rcases text with text | text | text | text
      all_goals simp [isBracket, isParen, isPunctuator, text]

theorem not_leadsName_of_decoratesType (decorates : token.decoratesType = true) :
    token.leadsName = false := by
  rcases decoratesType_cases decorates with ⟨kind, text⟩ | ⟨kind, text⟩
  · rcases text with text | text
    all_goals simp [leadsName, isScope, isKeyword, selectsMember, kind, text]
  · simp only [List.mem_cons, List.not_mem_nil, or_false] at text
    rcases text with text | text | text | text
    all_goals simp [leadsName, isScope, isKeyword, selectsMember, kind, text]

theorem grouped_of_decorate {tokens : List Token}
    (decorate : ∀ token ∈ tokens, token.decoratesType = true) : Grouped tokens := by
  induction tokens with
  | nil => exact .nil
  | cons token tokens ih =>
      obtain ⟨here, others⟩ := List.forall_mem_cons.mp decorate
      exact (grouped_of_decoratesType here).append (ih others)

end Last

namespace TypeEnd

variable {tokens : List Token}

theorem append {marks : List Token} (ends : TypeEnd tokens)
    (decorate : ∀ token ∈ marks, token.decoratesType = true) : TypeEnd (tokens ++ marks) := by
  induction marks generalizing tokens with
  | nil => simpa using ends
  | cons mark marks ih =>
      obtain ⟨here, others⟩ := List.forall_mem_cons.mp decorate
      rw [List.append_cons]
      exact ih (.decorated ends here) others

theorem not_leadsName (ends : TypeEnd tokens) :
    ∀ token ∈ tokens.getLast?, token.leadsName = false := by
  cases ends with
  | name isName => simpa using leadsName_of_isIdentifier isName
  | @keyword _ keyword isKeyword isType =>
      have other : keyword.text ≠ "template" := by
        intro same
        rw [same] at isType
        revert isType
        decide
      simp [leadsName, isScope, selectsMember, Token.isKeyword, isKeyword, other]
  | @template front arguments name first last _ _ _ closes =>
      rw [← List.cons_append, ← List.cons_append, ← List.append_assoc, List.getLast?_concat]
      have noMember := not_selectsMember_of_isPunctuator closes (by decide)
      simp [leadsName, isScope, Token.isKeyword, kind_of_isPunctuator closes, noMember]
  | decorated _ decorates => simpa using not_leadsName_of_decoratesType decorates

/-- Behind the type a name is declared. -/
theorem endsType (ends : TypeEnd tokens) (before : List Token) :
    Token.endsType (tokens.reverse ++ before) = true := by
  induction ends with
  | name isName => simp [Token.endsType, isName]
  | keyword isKeyword isType =>
      simp [Token.endsType, isIdentifier, isKeyword, isType]
  | @template front arguments name first last isName opens inside closes =>
      have notName : last.isIdentifier = false := by
        simp [isIdentifier, kind_of_isPunctuator closes]
      have closed : closesTemplate 0 0
          (last :: (arguments.reverse ++ first :: name :: (front.reverse ++ before))) = true := by
        rw [closesTemplate]
        simp only [closes, not_isPunctuator_of_isPunctuator closes, Bool.false_eq_true, if_false, if_true,
          ne_eq, String.reduceEq, not_false_eq_true, Nat.lt_irrefl]
        rw [inside.closesTemplate (.inl (Nat.succ_pos _)), closesTemplate]
        simp [opens, not_isPunctuator_of_isPunctuator opens, startsWithIdentifier, isName]
      simpa [Token.endsType, notName, kind_of_isPunctuator closes, closes,
        not_isPunctuator_of_isPunctuator closes] using closed
  | @decorated type mark _ decorates ih =>
      rw [List.reverse_append, List.reverse_singleton, List.append_assoc, List.singleton_append,
        Token.endsType, ih]
      rcases decoratesType_cases decorates with ⟨kind, text⟩ | ⟨kind, text⟩
      · rcases text with text | text
        all_goals simp [isConstancy, isKeyword, isPunctuator, kind, text]
      · simp only [List.mem_cons, List.not_mem_nil, or_false] at text
        rcases text with text | text | text | text
        all_goals simp [isIdentifier, isIndirection, isPunctuator, kind, text]

/-- The type does not go on a list of declared names. -/
theorem not_comma (ends : TypeEnd tokens) (before : List Token) :
    startsWith ((tokens.reverse ++ before).dropWhile isIndirection) "," = false := by
  have kept {last : Token} (others : List Token) (kept : last.isIndirection = false)
      (notComma : last.isPunctuator "," = false) :
      startsWith ((last :: others).dropWhile isIndirection) "," = false := by
    rw [List.dropWhile_cons_of_neg (by simp [kept])]
    exact notComma
  induction ends with
  | name isName =>
      rw [List.reverse_append, List.append_assoc]
      apply kept <;> simp [isIndirection, isPunctuator, kind_of_isIdentifier isName]
  | keyword isKeyword =>
      rw [List.reverse_append, List.append_assoc]
      apply kept <;> simp [isIndirection, isPunctuator, isKeyword]
  | @template front arguments name first last _ _ _ closes =>
      rw [← List.cons_append, ← List.cons_append, ← List.append_assoc, List.reverse_append,
        List.append_assoc]
      apply kept <;> simp [isIndirection, not_isPunctuator_of_isPunctuator closes]
  | @decorated type mark _ decorates ih =>
      rw [List.reverse_append, List.append_assoc]
      by_cases indirection : mark.isIndirection = true
      · rw [List.reverse_singleton, List.singleton_append, List.dropWhile_cons_of_pos indirection]
        exact ih
      · rw [Bool.not_eq_true] at indirection
        apply kept _ indirection
        rcases decoratesType_cases decorates with ⟨kind, text⟩ | ⟨kind, text⟩
        · simp [isPunctuator, kind]
        · have other : mark.text ≠ "," := by
            intro same
            simp [same] at text
          simp [isPunctuator, other]

end TypeEnd

namespace TypeLike

variable {tokens : List Token}

theorem ends (typeLike : TypeLike tokens) : TypeEnd tokens := by
  cases typeLike with
  | grouped _ ends => exact ends
  | elaborated _ _ _ valid decorate =>
      rw [← List.cons_append, ← List.append_assoc]
      apply TypeEnd.append _ decorate
      rw [NameChain.Layout.tokens, ← List.cons_append, ← List.append_assoc]
      exact .name valid.last

theorem foldl_parensBehind (typeLike : TypeLike tokens) (parens : Nat) :
    tokens.foldl parensBehind parens = parens := by
  cases typeLike with
  | grouped grouped _ => exact grouped.foldl_parensBehind parens
  | elaborated constancy isKeyword _ valid decorate =>
      have front := grouped_of_decorate fun token member => decoratesType_of_isConstancy (constancy token member)
      have named {token : Token} (kind : token.kind ≠ .punctuator) : token.isParen = false := by
        simp [isParen, not_isPunctuator kind]
      rw [List.foldl_append, front.foldl_parensBehind, List.foldl_cons,
        parensBehind_of_other (named (by simp [isKeyword])), List.foldl_append,
        Token.foldl_parensBehind fun token member => named (valid.not_punctuator token member)]
      exact (grouped_of_decorate decorate).foldl_parensBehind parens

end TypeLike

theorem leavesName_of_name {name follower : Token} (isName : name.isIdentifier = true)
    (follows : follower.isPunctuator "," = true ∨ follower.isPunctuator ")" = true) (left : List Token) :
    LeavesName (name :: follower :: left) := by
  have kind := kind_of_isIdentifier isName
  have other (text : String) (different : text ≠ "," ∧ text ≠ ")") :
      follower.isPunctuator text = false :=
    follows.elim (not_isPunctuator_of_isPunctuator · different.1.symm)
      (not_isPunctuator_of_isPunctuator · different.2.symm)
  have isMark : follower.kind = .punctuator := follows.elim kind_of_isPunctuator kind_of_isPunctuator
  have noAttribute : follower.opensAttribute = false := by
    rcases follows with isMark | isMark
    all_goals
      obtain ⟨kind, text⟩ := Bool.and_eq_true_iff.mp isMark
      rw [beq_iff_eq] at kind text
      simp [opensAttribute, isKeyword, kind, text]
  constructor
  case noScope => simp [isScope, kind]
  case noParen => simp [startsWith, isPunctuator, kind]
  case noEnd => simp [startsWith, isPunctuator, kind]
  case noBody => simp [Draft.opensRecord, startsWith, startsWithKeyword, isPunctuator, isKeyword, kind]
  case noAttributes =>
    apply attributesLength_of_first
    · simp [isPunctuator, kind]
    · simp [startsWith, other]
  case notFurther =>
    intro candidate found
    have single := NameChain.read?_name isName
      (show (follower :: left).head?.any isScope = false by simp [isScope, isMark])
    obtain rfl := Option.some.inj (single.symm.trans found)
    have behind : afterAttributes (follower :: left) = follower :: left := by
      rw [afterAttributes, attributesLength_of_first (other "[" (by decide)) (by simp [noAttribute])]
      rfl
    show Draft.opensRecord (afterAttributes (follower :: left)) = false
    rw [behind]
    simp [Draft.opensRecord, startsWith, startsWithKeyword, other, isKeyword, isMark]

theorem leavesName_of_mark {mark : Token} (decorates : mark.decoratesType = true) (rest : List Token) :
    LeavesName (mark :: rest) := by
  have notName : mark.isIdentifier = false ∧ mark.isScope = false := by
    rcases decoratesType_cases decorates with ⟨kind, -⟩ | ⟨kind, -⟩
    all_goals simp [isIdentifier, isScope, kind]
  have other (text : String) (different : text ∉ ["*", "&", "&&", "..."]) :
      mark.isPunctuator text = false := by
    rcases decoratesType_cases decorates with ⟨kind, -⟩ | ⟨-, known⟩
    · simp [isPunctuator, kind]
    · refine Bool.eq_false_iff.mpr fun same => different ?_
      rwa [← beq_iff_eq.mp (Bool.and_eq_true_iff.mp same).2]
  have notFinal : mark.isKeyword "final" = false := by
    rcases decoratesType_cases decorates with ⟨-, text | text⟩ | ⟨kind, -⟩
    · simp [isKeyword, text]
    · simp [isKeyword, text]
    · simp [isKeyword, kind]
  have noAttribute : mark.opensAttribute = false := by
    have known : mark.text ∈ ["const", "volatile", "*", "&", "&&", "..."] := by
      rcases decoratesType_cases decorates with ⟨-, text | text⟩ | ⟨-, text⟩
      · simp [text]
      · simp [text]
      · exact List.mem_append_right ["const", "volatile"] text
    simp only [opensAttribute, isKeyword]
    revert known
    generalize mark.text = text
    simp only [List.mem_cons, List.not_mem_nil, or_false]
    rintro (rfl | rfl | rfl | rfl | rfl | rfl) <;> simp
  constructor
  case noScope => simp [notName.2]
  case noParen => simp [startsWith, other]
  case noEnd => simp [startsWith, other]
  case noBody => simp [Draft.opensRecord, startsWith, startsWithKeyword, other, notFinal]
  case noAttributes => exact attributesLength_of_first (other "[" (by decide)) (by simp [noAttribute])
  case notFurther =>
    intro candidate found
    rcases NameChain.read?_head found with isName | isScope
    · simp [notName.1] at isName
    · simp [notName.2] at isScope

/-- The name of a parameter ends an elaborated type in front of it. -/
theorem leavesName_of_decorate {marks : List Token}
    (decorate : ∀ token ∈ marks, token.decoratesType = true) {name follower : Token}
    (isName : name.isIdentifier = true)
    (follows : follower.isPunctuator "," = true ∨ follower.isPunctuator ")" = true) (left : List Token) :
    LeavesName (marks ++ name :: follower :: left) := by
  cases marks with
  | nil => exact leavesName_of_name isName follows left
  | cons mark marks => exact leavesName_of_mark (List.forall_mem_cons.mp decorate).1 _

end Requalify.Token
