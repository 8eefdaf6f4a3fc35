import Requalify.Proofs.Outline.Lockstep

/-!
Heads of namespace definitions. The head of one definition with several names opens one scope, and the heads
of several definitions, one inside the other, open a scope for each name. The last of these scopes has the
kind and path of the single one.
-/

namespace Requalify

/-- Names with `::` between them. -/
def joinedNames : List String → List (TokenKind × String)
  | [] => []
  | first :: rest =>
      (.identifier, first) :: rest.flatMap fun name => [(.scope, "::"), (.identifier, name)]

/-- The head of one definition, up to its brace. -/
def compactHead (names : List String) : List (TokenKind × String) :=
  (.keyword, "namespace") :: (joinedNames names ++ [(.punctuator, "\x7b")])

/-- The heads of definitions one inside the other. -/
def nestedHeads (names : List String) : List (TokenKind × String) :=
  names.flatMap fun name => compactHead [name]

/-- The names of a definition; the keyword `inline` in front of it makes the first one inline. -/
def openedNames (isInline : Bool) : List String → List (String × Bool)
  | [] => []
  | first :: rest => (first, isInline) :: rest.map (·, false)

theorem openedNames_false (names : List String) : openedNames false names = names.map (·, false) := by
  cases names <;> rfl

namespace Token

theorem isPunctuator_of_eq {token : Token} {text : String} (lexeme : token.lexeme = (.punctuator, text)) :
    token.isPunctuator text = true := by
  obtain ⟨kind, same⟩ := Prod.mk.inj lexeme
  simp [isPunctuator, kind, same]

theorem isIdentifier_of_eq {token : Token} {text : String} (lexeme : token.lexeme = (.identifier, text)) :
    token.isIdentifier = true := by
  simp [isIdentifier, (Prod.mk.inj lexeme).1]

theorem isScope_of_eq {token : Token} {text : String} (lexeme : token.lexeme = (.scope, text)) :
    token.isScope = true := by
  simp [isScope, (Prod.mk.inj lexeme).1]

theorem isKeyword_of_eq {token : Token} {text : String} (lexeme : token.lexeme = (.keyword, text)) :
    token.isKeyword text = true := by
  obtain ⟨kind, same⟩ := Prod.mk.inj lexeme
  simp [isKeyword, kind, same]

end Token

namespace Draft

/-! Reading the names of one head. -/

section Names

variable {tokens rest : List Token} {brace : Token}

theorem namesBehind_of_joined {names : List String} {passed : List (String × Bool)} (more : passed ≠ [])
    (lexemes : tokens.map Token.lexeme =
      names.flatMap fun name => [(.scope, "::"), (.identifier, name)])
    (ends : rest.head?.any Token.isScope = false) (isInline : Bool) (count : Nat) :
    namesBehind isInline passed count (tokens ++ rest) =
      (passed.reverse ++ names.map (·, false), count + tokens.length) := by
  induction names generalizing tokens passed count with
  | nil =>
      obtain rfl : tokens = [] := by simpa using lexemes
      simp [namesBehind, ends]
  | cons name names ih =>
      obtain ⟨separator, tail, rfl, isSeparator, lexemes⟩ := List.map_eq_cons_iff.mp lexemes
      obtain ⟨token, tail, rfl, isName, lexemes⟩ := List.map_eq_cons_iff.mp lexemes
      have text : token.text = name := (Prod.mk.inj isName).2
      have notFirst : passed.isEmpty = false := by simpa using more
      rw [namesBehind, List.cons_append, List.head?_cons, Option.any_some,
        if_pos (Token.isScope_of_eq isSeparator), List.drop_succ_cons, List.drop_zero, List.cons_append,
        definitionNames_of_name _ _ _ (Token.isIdentifier_of_eq isName), notFirst, Bool.false_and, text,
        ih (List.cons_ne_nil _ _) lexemes]
      simp [Nat.add_assoc, Nat.add_comm 2]

theorem definitionNames_of_joined {names : List String}
    (lexemes : tokens.map Token.lexeme = joinedNames names) (isName : names ≠ [])
    (ends : rest.head?.any Token.isScope = false) (isInline : Bool) :
    definitionNames isInline [] 0 (tokens ++ rest) = (openedNames isInline names, tokens.length) := by
  obtain ⟨first, names, rfl⟩ := List.exists_cons_of_ne_nil isName
  obtain ⟨token, tail, rfl, isFirst, lexemes⟩ := List.map_eq_cons_iff.mp lexemes
  have text : token.text = first := (Prod.mk.inj isFirst).2
  rw [List.cons_append, definitionNames_of_name _ _ _ (Token.isIdentifier_of_eq isFirst), text,
    namesBehind_of_joined (List.cons_ne_nil _ _) lexemes ends]
  simp [openedNames, Nat.add_comm]

theorem attributesLength_brace (opens : brace.opensBrace = true) (rest : List Token) :
    Token.attributesLength 0 (brace :: rest) = 0 := by
  have notAttribute := Token.opensAttribute_of_punctuator opens (by decide)
  refine Token.attributesLength_of_first ?_ (by rw [notAttribute, Bool.false_and]) 0
  exact Token.not_isPunctuator_of_isPunctuator opens (by decide)

/-- No attribute stands in front of the names. -/
theorem attributesLength_joined {names : List String}
    (lexemes : tokens.map Token.lexeme = joinedNames names) (opens : brace.opensBrace = true)
    (rest : List Token) : Token.attributesLength 0 (tokens ++ brace :: rest) = 0 := by
  cases names with
  | nil =>
      obtain rfl : tokens = [] := by simpa [joinedNames] using lexemes
      exact attributesLength_brace opens rest
  | cons first names =>
      obtain ⟨token, tail, rfl, isFirst, lexemes⟩ := List.map_eq_cons_iff.mp lexemes
      have kind : token.kind = .identifier := (Prod.mk.inj isFirst).1
      have noParen : Token.startsWith (tail ++ brace :: rest) "(" = false := by
        cases names with
        | nil =>
            obtain rfl : tail = [] := by simpa using lexemes
            exact Token.not_isPunctuator_of_isPunctuator opens (by decide)
        | cons name names =>
            obtain ⟨separator, tail, rfl, isSeparator, -⟩ := List.map_eq_cons_iff.mp lexemes
            have kind : separator.kind = .scope := (Prod.mk.inj isSeparator).1
            simp [Token.startsWith, Token.isPunctuator, kind]
      rw [List.cons_append]
      refine Token.attributesLength_of_first (by simp [Token.isPunctuator, kind]) ?_ 0
      rw [noParen, Bool.and_false]

theorem startsWithIdentifier_joined {names : List String}
    (lexemes : tokens.map Token.lexeme = joinedNames names) (isName : names ≠ []) (before : List Token) :
    Token.startsWithIdentifier (tokens.reverse ++ before) = true := by
  have last : ∃ name, (joinedNames names).getLast? = some (.identifier, name) := by
    obtain ⟨first, names, rfl⟩ := List.exists_cons_of_ne_nil isName
    rcases List.eq_nil_or_concat names with rfl | ⟨front, name, rfl⟩
    · exact ⟨first, rfl⟩
    · exact ⟨name, by simp [joinedNames, List.getLast?_cons]⟩
  obtain ⟨name, last⟩ := last
  rw [← lexemes, List.getLast?_map, Option.map_eq_some_iff] at last
  obtain ⟨token, isLast, isName⟩ := last
  rw [Token.startsWithIdentifier, List.head?_append, List.head?_reverse, isLast]
  exact Token.isIdentifier_of_eq isName

end Names

/-- The draft behind the head of a namespace definition. -/
def enter (draft : Draft) (names : List (String × Bool)) (brace : Token) : Draft :=
  { draft with opening := some (.named names) }.openScope brace true

section Head

variable (draft : Draft) {keyword brace : Token} {tokens : List Token} {names : List String}
  (lexemes : tokens.map Token.lexeme = joinedNames names) (isName : names ≠ [])
  (opens : brace.opensBrace = true)

include lexemes isName opens

theorem stepNamespace_joined (before rest : List Token) :
    draft.stepNamespace before keyword (tokens ++ brace :: rest) =
      ({ draft with
        opening := some (.named (openedNames (Token.startsWithKeyword before "inline") names)) },
        tokens.length) := by
  have lead := attributesLength_joined lexemes opens rest
  have ends : (brace :: rest).head?.any Token.isScope = false := by
    simp [Token.isScope, Token.kind_of_isPunctuator opens]
  have read := definitionNames_of_joined lexemes isName ends (Token.startsWithKeyword before "inline")
  have stop : 0 + tokens.length +
      Token.attributesLength 0 ((tokens ++ brace :: rest).drop (0 + tokens.length)) = tokens.length := by
    simp [attributesLength_brace opens]
  have notBrace : Token.startsWith (tokens ++ brace :: rest) "\x7b" = false := by
    obtain ⟨first, names, rfl⟩ := List.exists_cons_of_ne_nil isName
    obtain ⟨token, tail, rfl, isFirst, -⟩ := List.map_eq_cons_iff.mp lexemes
    have kind : token.kind = .identifier := (Prod.mk.inj isFirst).1
    simp [Token.startsWith, Token.isPunctuator, kind]
  have notEquals : Token.startsWith (brace :: rest) "=" = false :=
    Token.not_isPunctuator_of_isPunctuator opens (by decide)
  have notEmpty : (openedNames (Token.startsWithKeyword before "inline") names).isEmpty = false := by
    obtain ⟨first, names, rfl⟩ := List.exists_cons_of_ne_nil isName
    rfl
  have isBrace : Token.startsWith (brace :: rest) "\x7b" = true := opens
  rw [stepNamespace_eq lead rfl read stop, List.drop_zero, notBrace, if_neg (by decide), List.drop_left,
    openNamespace_of_other notEquals, notEmpty, isBrace]
  rfl

/-- Reading goes through the head of a definition. -/
theorem goes_enter (isKeyword : keyword.isKeyword "namespace" = true) (before rest : List Token) :
    Goes draft before (keyword :: (tokens ++ brace :: rest))
      (draft.enter (openedNames (Token.startsWithKeyword before "inline") names) brace)
      (brace :: (tokens.reverse ++ keyword :: before)) rest := by
  obtain ⟨kind, text⟩ : keyword.kind = .keyword ∧ keyword.text = "namespace" := by
    simpa [Token.isKeyword] using isKeyword
  have stepEq : draft.step before keyword (tokens ++ brace :: rest) =
      draft.stepNamespace before keyword (tokens ++ brace :: rest) := by
    rw [step, kind]
    simp only [stepKeyword, text]
  have taken := @stepNamespace_joined draft keyword brace tokens names lexemes isName opens before rest
  rw [← stepEq] at taken
  have stride : Token.stride before keyword (tokens ++ brace :: rest) = tokens.length := by
    rw [← step_stride draft, taken]
  have afterName := startsWithIdentifier_joined lexemes isName (keyword :: before)
  refine .of_stride stride ?_
  rw [taken, List.take_left, List.drop_left]
  refine .step ?_
  have alone : Token.stride (tokens.reverse ++ keyword :: before) brace rest = 0 := by
    rw [Token.stride, step_of_opensBrace _ _ _ opens]
  rw [alone, step_of_opensBrace _ _ _ opens, afterName]
  exact .stay _ _ _

end Head

/-- The scope that a head opens. -/
def entered (draft : Draft) (names : List (String × Bool)) (brace : Token) : Scope :=
  ⟨.named (names.getLast?.any (·.2)), some draft.frame.scope, Opening.pathWithin draft.frame.path names,
    Span.between brace.start draft.size⟩

theorem enter_eq (draft : Draft) (names : List (String × Bool)) (brace : Token) :
    ∃ namespaces keywords, draft.enter names brace =
      { draft with
        namespaces := namespaces
        anonymousNamespaces := keywords
        scopes := draft.scopes.push (draft.entered names brace)
        frame := Frame.ofScope draft.scopes.size (draft.entered names brace).kind
          (draft.entered names brace).path
        outer := draft.frame :: draft.outer
        opening := none
        parked := [] } := by
  obtain ⟨namespaces, keywords, eq⟩ :=
    { draft with opening := some (.named names) }.openScope_eq brace true
  exact ⟨namespaces, keywords, eq⟩

/-- From `draft` to `next` namespaces have been opened one inside the other, and nothing else has been
read. -/
structure Nested (draft : Draft) (opened : List (String × Bool)) (next : Draft) : Prop where
  size : next.scopes.size = draft.scopes.size + opened.length
  outside : ∀ id < draft.scopes.size, next.finish.scope id = draft.finish.scope id
  first : (next.finish.scope draft.scopes.size).parent = some draft.frame.scope
  within : ∀ id, draft.scopes.size ≤ id → id + 1 < next.scopes.size →
    (next.finish.scope (id + 1)).parent = some id
  named : ∀ id, draft.scopes.size ≤ id → id < next.scopes.size →
    ∃ isInline, (next.finish.scope id).kind = .named isInline
  kind : (next.finish.scope (next.scopes.size - 1)).kind = .named (opened.getLast?.any (·.2))
  path : (next.finish.scope (next.scopes.size - 1)).path = Opening.pathWithin draft.frame.path opened
  frame : next.frame = Frame.ofScope (next.scopes.size - 1) (.named (opened.getLast?.any (·.2)))
    (Opening.pathWithin draft.frame.path opened)
  declarations : next.declarations = draft.declarations
  bindings : next.bindings = draft.bindings
  usings : next.usings = draft.usings
  mentions : next.mentions = draft.mentions
  opening : next.opening = none
  parked : next.parked = []

theorem enter_nested (draft : Draft) (opened : String × Bool) (brace : Token) :
    draft.Nested [opened] (draft.enter [opened] brace) := by
  obtain ⟨_, _, eq⟩ := draft.enter_eq [opened] brace
  have pushed : (draft.enter [opened] brace).scopes = draft.scopes.push (draft.entered [opened] brace) := by
    rw [eq]
  have size : (draft.enter [opened] brace).scopes.size = draft.scopes.size + 1 := by
    rw [pushed, Array.size_push]
  have last : (draft.enter [opened] brace).finish.scope draft.scopes.size = draft.entered [opened] brace := by
    rw [scope_push pushed, if_pos rfl]
  exact {
    size := size
    outside := fun id less => by rw [scope_push pushed, if_neg (Nat.ne_of_lt less)]
    first := by rw [last]; rfl
    within := fun id atLeast bound => by omega
    named := fun id atLeast bound => by
      obtain rfl : id = draft.scopes.size := by omega
      exact ⟨opened.2, by rw [last]; rfl⟩
    kind := by rw [size, Nat.add_sub_cancel, last]; rfl
    path := by rw [size, Nat.add_sub_cancel, last]; rfl
    frame := by rw [size, Nat.add_sub_cancel, eq]; rfl
    declarations := by rw [eq]
    bindings := by rw [eq]
    usings := by rw [eq]
    mentions := by rw [eq]
    opening := by rw [eq]
    parked := by rw [eq] }

/-- A definition around others. -/
theorem Nested.cons {draft next : Draft} {opened : String × Bool} {others : List (String × Bool)}
    {brace : Token} (more : others ≠ []) (nested : (draft.enter [opened] brace).Nested others next) :
    draft.Nested (opened :: others) next := by
  have first := draft.enter_nested opened brace
  obtain ⟨_, _, eq⟩ := draft.enter_eq [opened] brace
  have size : (draft.enter [opened] brace).scopes.size = draft.scopes.size + 1 := first.size
  have current : (draft.enter [opened] brace).frame.scope = draft.scopes.size := by rw [eq]; rfl
  have path : (draft.enter [opened] brace).frame.path =
      Opening.pathWithin draft.frame.path [opened] := by rw [eq]; rfl
  have last : (opened :: others).getLast? = others.getLast? := by
    obtain ⟨other, others, rfl⟩ := List.exists_cons_of_ne_nil more
    exact List.getLast?_cons_cons
  have joined : Opening.pathWithin (Opening.pathWithin draft.frame.path [opened]) others =
      Opening.pathWithin draft.frame.path (opened :: others) := rfl
  exact {
    size := by rw [nested.size, size, List.length_cons]; omega
    outside := fun id less => by rw [nested.outside id (by omega), first.outside id less]
    first := by rw [nested.outside _ (by omega), first.first]
    within := fun id atLeast bound => by
      by_cases isFirst : id = draft.scopes.size
      · rw [isFirst, ← size, nested.first, current]
      · exact nested.within id (by omega) bound
    named := fun id atLeast bound => by
      by_cases isFirst : id = draft.scopes.size
      · obtain ⟨isInline, kind⟩ := first.named id atLeast (by omega)
        exact ⟨isInline, by rw [nested.outside id (by omega), kind]⟩
      · exact nested.named id (by omega) bound
    kind := by rw [last]; exact nested.kind
    path := by rw [nested.path, path, joined]
    frame := by rw [last, nested.frame, path, joined]
    declarations := nested.declarations.trans first.declarations
    bindings := nested.bindings.trans first.bindings
    usings := nested.usings.trans first.usings
    mentions := nested.mentions.trans first.mentions
    opening := nested.opening
    parked := nested.parked }

/-- Reading goes through the heads of definitions one inside the other. -/
theorem goes_nested (draft : Draft) {names : List String} (isName : names ≠ []) {heads : List Token}
    (lexemes : heads.map Token.lexeme = nestedHeads names) (before rest : List Token) :
    ∃ next, Goes draft before (heads ++ rest) next (heads.reverse ++ before) rest ∧
      draft.Nested (openedNames (Token.startsWithKeyword before "inline") names) next := by
  induction names generalizing draft heads before with
  | nil => exact absurd rfl isName
  | cons name names ih =>
      obtain ⟨keyword, tail, rfl, isKeyword, lexemes⟩ := List.map_eq_cons_iff.mp lexemes
      obtain ⟨token, tail, rfl, isToken, lexemes⟩ := List.map_eq_cons_iff.mp lexemes
      obtain ⟨brace, heads, rfl, isBrace, lexemes⟩ := List.map_eq_cons_iff.mp lexemes
      have opens : brace.opensBrace = true := Token.isPunctuator_of_eq isBrace
      have single : [token].map Token.lexeme = joinedNames [name] :=
        congrArg (fun lexeme => [lexeme]) isToken
      have entered := draft.goes_enter single (by simp) opens (Token.isKeyword_of_eq isKeyword) before
        (heads ++ rest)
      have whole : (keyword :: token :: brace :: heads).reverse ++ before =
          heads.reverse ++ brace :: token :: keyword :: before := by simp
      rw [whole]
      cases names with
      | nil =>
          obtain rfl : heads = [] := by simpa using lexemes
          exact ⟨_, entered, draft.enter_nested _ brace⟩
      | cons second names =>
          obtain ⟨next, goes, nested⟩ := ih
            (draft.enter (openedNames (Token.startsWithKeyword before "inline") [name]) brace) (by simp)
            lexemes (brace :: token :: keyword :: before)
          have plain : Token.startsWithKeyword (brace :: token :: keyword :: before) "inline" = false := by
            simp [Token.startsWithKeyword, Token.isKeyword, Token.kind_of_isPunctuator opens]
          rw [plain, openedNames_false] at nested
          exact ⟨next, entered.trans goes, nested.cons (by simp)⟩

end Draft

end Requalify
