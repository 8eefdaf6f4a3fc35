import Requalify.Catalog.Builtin
import Requalify.Proofs.Lookup
import Requalify.Proofs.Outline.Bodies

/-!
Parameters hide namespace members in the body of their function. A body that stands directly behind a name
is taken for a value, and then its parameters are not bound.
-/

namespace Requalify

/-- A function definition from the parentheses of its parameters to the end of its body. -/
structure FunctionDefinition where
  opening : Token
  parameters : List Token
  closing : Token
  /-- What stands between the parameters and the body. -/
  head : List Token
  bodyStart : Token
  body : List Token
  bodyEnd : Token

namespace FunctionDefinition

def fromBody (definition : FunctionDefinition) (behind : List Token) : List Token :=
  definition.bodyStart :: (definition.body ++ definition.bodyEnd :: behind)

/-- The definition in front of the tokens of `behind`. -/
def tokens (definition : FunctionDefinition) (behind : List Token) : List Token :=
  definition.opening :: (definition.parameters ++ definition.closing ::
    (definition.head ++ definition.fromBody behind))

def bodyTokens (definition : FunctionDefinition) : List Token :=
  definition.bodyStart :: (definition.body ++ [definition.bodyEnd])

structure Declares (definition : FunctionDefinition) (names : List String) : Prop where
  opening : definition.opening.isPunctuator "(" = true
  parameters : Token.SpellsParameters names definition.parameters
  closing : definition.closing.isPunctuator ")" = true
  head : Token.isHead [] definition.head = true
  /-- The body is not taken for a value. -/
  notValue : Token.startsWithIdentifier definition.head.reverse = false
  bodyStart : definition.bodyStart.opensBrace = true
  body : Token.Balanced definition.body
  bodyEnd : definition.bodyEnd.closesBrace = true

end FunctionDefinition

namespace Draft

/-- A place in a namespace or record where no other head and no type definition has begun. -/
structure AtRest (draft : Draft) : Prop where
  kind : draft.frame.kind.holdsMembers = true ∨ draft.frame.kind = .record
  opening : draft.opening = none
  typedefStart : draft.frame.typedefStart = none

theorem AtRest.paren {draft : Draft} (rests : draft.AtRest) {paren : Token}
    (opens : paren.isPunctuator "(" = true) (before left : List Token) :
    ∃ next, draft.Passes before [paren] left next ∧ next.InParameters ∧ next.opening = none := by
  have isPlain := Token.isPlain_of_isPunctuator opens (by decide)
  have passes : draft.Passes before [paren] left (draft.step before paren left).1 := by
    apply Passes.of_step (Token.isQuiet_of_isPlain isPlain)
    · exact Token.stride_of_isPunctuator before left opens (by decide)
    · simp
  refine ⟨_, passes, ⟨?_, ?_, ?_⟩, passes.waits.opening.trans rests.opening⟩
  · rw [passes.kind]
    exact rests.kind
  · rw [passes.parens]
    simp [Token.parensBehind, opens]
  · exact passes.waits.typedefStart.trans rests.typedefStart

theorem Passes.closing (draft : Draft) {paren : Token} (closes : paren.isPunctuator ")" = true)
    (before left : List Token) : ∃ next, draft.Passes before [paren] left next := by
  have isPlain := Token.isPlain_of_isPunctuator closes (by decide)
  refine ⟨_, Passes.of_step (Token.isQuiet_of_isPlain isPlain) ?_ (by simp)⟩
  exact Token.stride_of_isPunctuator before left closes (by decide)

end Draft

section Definition

variable {text : String} {definition : FunctionDefinition} {names : List String} {draft : Draft}
  {before behind : List Token}
  (goes : Draft.Goes (Draft.start (Text.byteLength text.toList)) [] (tokenize text) draft before
    (definition.tokens behind))
  (rests : draft.AtRest) (declares : definition.Declares names)
  (stopsAt : ∀ token ∈ definition.bodyTokens, token.isBrace = true →
    token ∈ (Token.stops [] (tokenize text)).map (·.token))

include goes rests declares stopsAt

/-- At the body all parameters are waiting. -/
theorem Draft.Goes.toBody : ∃ next before',
    Draft.Goes (Draft.start (Text.byteLength text.toList)) [] (tokenize text) next before'
      (definition.fromBody behind) ∧
    next.opening = none ∧ Token.startsWithIdentifier before' = false ∧
    ∀ name ∈ names, ∃ offset, (name, offset) ∈ next.parked := by
  obtain ⟨listed, first, inside, noOpening⟩ := rests.paren declares.opening before
    (definition.parameters ++ definition.closing :: (definition.head ++ definition.fromBody behind))
  obtain ⟨filled, second, -, parked⟩ := Draft.Passes.parameters declares.parameters declares.closing inside
    ([definition.opening].reverse ++ before) (definition.head ++ definition.fromBody behind)
  obtain ⟨closed, third⟩ := Draft.Passes.closing filled declares.closing
    (definition.parameters.reverse ++ ([definition.opening].reverse ++ before))
    (definition.head ++ definition.fromBody behind)
  have toHead := ((goes.trans first.goes).trans second.goes).trans third.goes
  generalize beforeEq : [definition.closing].reverse ++ (definition.parameters.reverse ++
    ([definition.opening].reverse ++ before)) = behindList at toHead
  have whole : tokenize text = behindList.reverse ++ (definition.head ++ definition.fromBody behind) :=
    toHead.parts.1
  have unique := tokenize_nodup text
  have isStop := stopsAt definition.bodyStart (List.mem_cons_self ..)
    (by simp [Token.isBrace, declares.bodyStart])
  rw [whole] at unique isStop toHead goes
  obtain ⟨next, fourth⟩ := Draft.Goes.to_stop closed unique
    (toHead.mem_stops unique (by simp [FunctionDefinition.fromBody]) isStop)
  have noOpening' : closed.opening = none :=
    third.waits.opening.trans (second.waits.opening.trans noOpening)
  obtain ⟨opening, waiting⟩ := fourth.head declares.head noOpening'
  refine ⟨next, _, whole ▸ toHead.trans fourth, opening, ?_, fun name member => ?_⟩
  · have notValue := declares.notValue
    cases reversed : definition.head.reverse with
    | nil =>
        rw [← beforeEq]
        simp [Token.startsWithIdentifier, Token.isIdentifier,
          Token.kind_of_isPunctuator declares.closing]
    | cons last others => simpa [reversed, Token.startsWithIdentifier] using notValue
  · obtain ⟨offset, known⟩ := parked name member
    exact ⟨offset, waiting.subset (third.waits.parked.subset known)⟩

theorem Outline.binds_of_body : ∃ id,
    (∀ name ∈ names, (Outline.ofText text).binds id name = true) ∧
    ∀ mention ∈ (Outline.ofText text).mentions,
      definition.bodyStart.start ≤ mention.chain.start → mention.chain.start < definition.bodyEnd.start →
        id ∈ (Outline.ofText text).ancestors mention.scope := by
  obtain ⟨next, before', toBody, noOpening, notValue, parked⟩ := goes.toBody rests declares stopsAt
  refine ⟨next.scopes.size, fun name member => ?_, fun mention member starts ends => ?_⟩
  · obtain ⟨offset, known⟩ := parked name member
    have opened := next.step_of_opensBrace before' (definition.body ++ definition.bodyEnd :: behind)
      declares.bodyStart
    have bound : ⟨name, next.scopes.size, offset⟩ ∈ (next.step before' definition.bodyStart
        (definition.body ++ definition.bodyEnd :: behind)).1.bindings := by
      rw [opened, notValue, Draft.openScope_bindings noOpening]
      exact List.mem_append_left _ (List.mem_map.mpr ⟨(name, offset), known, rfl⟩)
    have final : (Draft.start (Text.byteLength text.toList)).readFrom [] (tokenize text) = _ :=
      toBody.readFrom.trans (Draft.readFrom_cons ..)
    have kept : ⟨name, next.scopes.size, offset⟩ ∈ (Outline.ofText text).bindings := by
      rw [Outline.ofText, final]
      exact List.mem_reverse.mpr ((Draft.readFrom_bindings ..).subset bound)
    exact List.any_eq_true.mpr ⟨_, kept, by simp⟩
  · exact Outline.mem_ancestors_of_body toBody declares.bodyStart declares.body declares.bodyEnd stopsAt
      member starts ends

/-- In the body of a function its parameters are bound, whatever is declared elsewhere. -/
theorem Environment.parameters_bound (catalog : Catalog) {mention : Mention}
    (member : mention ∈ (Outline.ofText text).mentions) (single : mention.chain.isSingle = true)
    (isName : mention.chain.last.text ∈ names)
    (starts : definition.bodyStart.start ≤ mention.chain.start)
    (ends : mention.chain.start < definition.bodyEnd.start) :
    (Environment.ofOutline (Outline.ofText text) catalog).resolve mention = .bound := by
  obtain ⟨id, binds, inside⟩ := Outline.binds_of_body goes rests declares stopsAt
  obtain ⟨noLead, noQualifier⟩ := Bool.and_eq_true_iff.mp single
  have first : mention.chain.first = mention.chain.last := by
    simp [NameChain.first, List.isEmpty_iff.mp noQualifier]
  have bound : (Environment.ofOutline (Outline.ofText text) catalog).isBound mention.scope
      mention.chain.first.text = true := by
    rw [isBound, ofOutline_outline, first]
    exact List.any_eq_true.mpr ⟨id, inside mention member starts ends, binds _ isName⟩
  simp [resolve, noLead, bound]

end Definition

set_option maxRecDepth 100000 in
theorem Environment.parameters_bound_constructor :
    let text := "struct S \x7b S(A<B>& count, struct R* end) : a\x7b1\x7d \x7b g(count); \x7d \x7d;\n"
    let mention : Mention := ⟨⟨none, [], ⟨"count", ⟨52, 57, by decide⟩⟩⟩, 3, .plain⟩
    mention ∈ (Outline.ofText text).mentions ∧
      (Environment.ofOutline (Outline.ofText text) Catalog.builtin).resolve mention = .bound := by
  intro text mention
  let first : List Token := [⟨.identifier, "A", 13⟩, ⟨.punctuator, "<", 14⟩, ⟨.identifier, "B", 15⟩,
    ⟨.punctuator, ">", 16⟩, ⟨.punctuator, "&", 17⟩]
  let second : List Token := [⟨.keyword, "struct", 26⟩, ⟨.identifier, "R", 33⟩, ⟨.punctuator, "*", 34⟩]
  let definition : FunctionDefinition :=
    { opening := ⟨.punctuator, "(", 12⟩
      parameters := first ++ ⟨.identifier, "count", 19⟩ :: ⟨.punctuator, ",", 24⟩ ::
        (second ++ [⟨.identifier, "end", 36⟩])
      closing := ⟨.punctuator, ")", 39⟩
      head := [⟨.punctuator, ":", 41⟩, ⟨.identifier, "a", 43⟩, ⟨.punctuator, "\x7b", 44⟩, ⟨.number, "1", 45⟩,
        ⟨.punctuator, "\x7d", 46⟩]
      bodyStart := ⟨.punctuator, "\x7b", 48⟩
      body := [⟨.identifier, "g", 50⟩, ⟨.punctuator, "(", 51⟩, ⟨.identifier, "count", 52⟩,
        ⟨.punctuator, ")", 57⟩, ⟨.punctuator, ";", 58⟩]
      bodyEnd := ⟨.punctuator, "\x7d", 60⟩ }
  have grouped : Token.Grouped first :=
    .plain (by decide) (by decide) (@Token.Grouped.group _ _ [_] _ (by decide)
      (.single (by decide) (by decide)) (.single (by decide) (by decide)))
  have ends : Token.TypeEnd first :=
    @Token.TypeEnd.decorated (first.take 4) _ (@Token.TypeEnd.template [] [_] _ _ _ (by decide) (by decide)
      (.single (by decide) (by decide)) (by decide)) (by decide)
  have elaborated : Token.TypeLike second :=
    @Token.TypeLike.elaborated [] [_] _ ⟨none, [], _⟩ (by simp) (by decide) (by decide)
      ⟨by simp, by simp, by decide⟩ (by decide)
  have parameters : Token.SpellsParameters ["count", "end"] definition.parameters :=
    @Token.SpellsParameters.more ["end"] first _ ⟨.identifier, "count", 19⟩ ⟨.punctuator, ",", 24⟩
      (.grouped grouped ends) (by decide) (by decide)
      (@Token.SpellsParameters.last second ⟨.identifier, "end", 36⟩ elaborated (by decide))
  have declares : definition.Declares ["count", "end"] :=
    ⟨by decide, parameters, by decide, by decide, by decide, by decide, by decide, by decide⟩
  let place := (Draft.start (Text.byteLength text.toList)).reach 3 [] (tokenize text)
  have evaluated : place.2.2 = definition.tokens [⟨.punctuator, "\x7d", 62⟩, ⟨.punctuator, ";", 63⟩] ∧
      (place.1.frame.kind = .record ∧ place.1.opening = none ∧ place.1.frame.typedefStart = none) ∧
      (∀ token ∈ definition.bodyTokens, token.isBrace = true →
        token ∈ (Token.stops [] (tokenize text)).map (·.token)) ∧
      mention ∈ (Outline.ofText text).mentions := by
    decide +kernel
  obtain ⟨tokensEq, ⟨kind, opening, typedefStart⟩, stopsAt, member⟩ := evaluated
  have goes := Draft.goes_reach 3 (Draft.start (Text.byteLength text.toList)) [] (tokenize text)
  exact ⟨member, parameters_bound (tokensEq ▸ goes) ⟨.inr kind, opening, typedefStart⟩ declares stopsAt
    Catalog.builtin member (by decide) (by decide) (by decide) (by decide)⟩

set_option maxRecDepth 100000 in
/-- In front of the body, as in an initializer, a parameter is not bound yet. -/
theorem Environment.initializer_misses_parameter :
    ¬∀ (text : String) (definition : FunctionDefinition) (names : List String) (draft : Draft)
      (before behind : List Token),
      Draft.Goes (Draft.start (Text.byteLength text.toList)) [] (tokenize text) draft before
        (definition.tokens behind) → draft.AtRest → definition.Declares names →
      (∀ token ∈ definition.bodyTokens, token.isBrace = true →
        token ∈ (Token.stops [] (tokenize text)).map (·.token)) →
      ∀ catalog, ∀ mention ∈ (Outline.ofText text).mentions, mention.chain.isSingle = true →
        mention.chain.last.text ∈ names → definition.closing.stop ≤ mention.chain.start →
        mention.chain.start < definition.bodyEnd.start →
        (Environment.ofOutline (Outline.ofText text) catalog).resolve mention = .bound := by
  intro claim
  let text :=
    "namespace std \x7b int count; \x7d using namespace std;\nstruct S \x7b S(int count) : a(count) \x7b\x7d \x7d;\n"
  let definition : FunctionDefinition :=
    { opening := ⟨.punctuator, "(", 62⟩
      parameters := [⟨.keyword, "int", 63⟩, ⟨.identifier, "count", 67⟩]
      closing := ⟨.punctuator, ")", 72⟩
      head := [⟨.punctuator, ":", 74⟩, ⟨.identifier, "a", 76⟩, ⟨.punctuator, "(", 77⟩,
        ⟨.identifier, "count", 78⟩, ⟨.punctuator, ")", 83⟩]
      bodyStart := ⟨.punctuator, "\x7b", 85⟩
      body := []
      bodyEnd := ⟨.punctuator, "\x7d", 86⟩ }
  let mention : Mention := ⟨⟨none, [], ⟨"count", ⟨78, 83, by decide⟩⟩⟩, 2, .plain⟩
  have typeLike : Token.TypeLike [⟨.keyword, "int", 63⟩] :=
    .grouped (.single (by decide) (by decide)) (@Token.TypeEnd.keyword [] _ (by decide) (by decide))
  have declares : definition.Declares ["count"] :=
    ⟨by decide, @Token.SpellsParameters.last _ ⟨.identifier, "count", 67⟩ typeLike (by decide),
      by decide, by decide, by decide, by decide, by decide, by decide⟩
  let place := (Draft.start (Text.byteLength text.toList)).reach 11 [] (tokenize text)
  have evaluated : place.2.2 = definition.tokens [⟨.punctuator, "\x7d", 88⟩, ⟨.punctuator, ";", 89⟩] ∧
      (place.1.frame.kind = .record ∧ place.1.opening = none ∧ place.1.frame.typedefStart = none) ∧
      (∀ token ∈ definition.bodyTokens, token.isBrace = true →
        token ∈ (Token.stops [] (tokenize text)).map (·.token)) ∧
      mention ∈ (Outline.ofText text).mentions ∧
      (Environment.ofOutline (Outline.ofText text) (Catalog.empty.add (Outline.ofText text) false)).resolve
        mention ≠ .bound := by
    decide +kernel
  obtain ⟨tokensEq, ⟨kind, opening, typedefStart⟩, stopsAt, member, missed⟩ := evaluated
  have goes := Draft.goes_reach 11 (Draft.start (Text.byteLength text.toList)) [] (tokenize text)
  exact missed (claim text definition ["count"] _ _ _ (tokensEq ▸ goes) ⟨.inr kind, opening, typedefStart⟩
    declares stopsAt _ mention member (by decide) (by decide) (by decide) (by decide))

end Requalify
