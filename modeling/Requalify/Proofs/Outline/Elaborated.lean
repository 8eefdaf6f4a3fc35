import Requalify.Proofs.Outline.Strides
import Requalify.Proofs.Token.Chain

/-!
Names behind `struct` and the like that no body follows. They are mentioned, and the step takes the name and
nothing else.
-/

namespace Requalify

namespace NameChain

def Layout.tokens (layout : Layout) : List Token :=
  layout.front ++ [layout.last]

theorem readFrom_pairs (leading : Option Span) (passed : List (NameToken × Span)) {name last : Token}
    {pairs : List (Token × Token)} {rest after : List Token}
    (valid : ∀ pair ∈ pairs, pair.1.isIdentifier = true ∧ pair.2.isScope = true)
    (isName : last.isIdentifier = true) (noScope : after.head?.any Token.isScope = false)
    (parts : pairs.flatMap (fun pair => [pair.1, pair.2]) ++ last :: after = name :: rest) :
    readFrom leading passed name rest =
      ⟨leading, passed.reverse ++ pairs.map fun pair => (pair.1.name, pair.2.span), last.name⟩ := by
  induction pairs generalizing passed name rest with
  | nil =>
      obtain ⟨rfl, rfl⟩ := List.cons.inj parts
      rcases after with - | ⟨first, - | ⟨second, rest⟩⟩
      · simp [readFrom]
      · simp [readFrom]
      · have notScope : first.isScope = false := by simpa using noScope
        simp [readFrom, notScope]
  | cons pair pairs ih =>
      obtain ⟨⟨firstName, isSeparator⟩, others⟩ := List.forall_mem_cons.mp valid
      simp only [List.flatMap_cons, List.cons_append, List.nil_append, List.cons.injEq] at parts
      obtain ⟨rfl, rfl⟩ := parts
      obtain ⟨next, further, further_eq, nextName⟩ : ∃ next further,
          pairs.flatMap (fun pair => [pair.1, pair.2]) ++ last :: after = next :: further ∧
            next.isIdentifier = true := by
        cases pairs with
        | nil => exact ⟨last, after, rfl, isName⟩
        | cons second pairs => exact ⟨second.1, _, rfl, (others second (List.mem_cons_self ..)).1⟩
      rw [further_eq, readFrom, if_pos (by simp [isSeparator, nextName]), ih _ others further_eq]
      simp

theorem Layout.Valid.read? {layout : Layout} (valid : layout.Valid) {after : List Token}
    (noScope : after.head?.any Token.isScope = false) :
    NameChain.read? (layout.tokens ++ after) = some layout.chain := by
  obtain ⟨lead, pairs, last⟩ := layout
  obtain ⟨isSeparator, names, isName⟩ := valid
  dsimp only at isSeparator names isName
  obtain ⟨name, rest, parts, firstName⟩ : ∃ name rest,
      pairs.flatMap (fun pair => [pair.1, pair.2]) ++ last :: after = name :: rest ∧
        name.isIdentifier = true := by
    cases pairs with
    | nil => exact ⟨last, after, rfl, isName⟩
    | cons pair pairs => exact ⟨pair.1, _, rfl, (names pair (List.mem_cons_self ..)).1⟩
  have tokensEq : (⟨lead, pairs, last⟩ : Layout).tokens ++ after = lead.toList ++ name :: rest := by
    rw [← parts]
    simp [tokens, front]
  rw [tokensEq]
  cases lead with
  | none =>
      simp only [Option.toList_none, List.nil_append, NameChain.read?.eq_def, firstName, if_true]
      rw [readFrom_pairs none [] names isName noScope parts]
      rfl
  | some lead =>
      have separator := isSeparator lead rfl
      have notName : lead.isIdentifier = false := by
        simp [Token.isIdentifier, Token.kind_of_isScope separator]
      simp only [Option.toList_some, List.cons_append, List.nil_append, NameChain.read?, notName,
        separator, firstName]
      rw [readFrom_pairs (some lead.span) [] names isName noScope parts]
      rfl

theorem read?_name {name : Token} (isName : name.isIdentifier = true) {after : List Token}
    (noScope : after.head?.any Token.isScope = false) :
    read? (name :: after) = some ⟨none, [], name.name⟩ :=
  (⟨by simp, by simp, isName⟩ : (⟨none, [], name⟩ : Layout).Valid).read? noScope

end NameChain

namespace Token

/-- What may stand behind the name of an elaborated type: no `::`, no attribute, and nothing that begins a
body or ends the statement, neither here nor behind another name. -/
structure LeavesName (after : List Token) : Prop where
  noScope : after.head?.any isScope = false
  noParen : startsWith after "(" = false
  noEnd : startsWith after ";" = false
  noBody : Draft.opensRecord after = false
  noAttributes : ∀ count, attributesLength count after = count
  notFurther : ∀ candidate, NameChain.read? after = some candidate →
    Draft.opensRecord (afterAttributes (after.drop candidate.size)) = false

end Token

namespace NameChain.Layout.Valid

variable {layout : Layout} (valid : layout.Valid)

include valid

theorem tokens_length : layout.tokens.length = layout.chain.size := by
  rw [valid.spelled.size, Layout.tokens, List.length_append, List.length_singleton]

theorem kinds : ∀ token ∈ layout.tokens, token.kind = .identifier ∨ token.kind = .scope := by
  intro token member
  rw [Layout.tokens, Layout.front, List.mem_append, List.mem_append, List.mem_flatMap] at member
  rcases member with (lead | ⟨pair, known, inside⟩) | last
  · exact .inr (Token.kind_of_isScope (valid.lead token (Option.mem_toList.mp lead)))
  · obtain ⟨isName, isSeparator⟩ := valid.pairs pair known
    rcases List.mem_cons.mp inside with rfl | inside
    · exact .inl (Token.kind_of_isIdentifier isName)
    · exact .inr (List.mem_singleton.mp inside ▸ Token.kind_of_isScope isSeparator)
  · exact .inl (List.mem_singleton.mp last ▸ Token.kind_of_isIdentifier valid.last)

theorem not_punctuator : ∀ token ∈ layout.tokens, token.kind ≠ .punctuator := by
  intro token member
  rcases valid.kinds token member with kind | kind <;> simp [kind]

theorem not_keyword (after : List Token) (text : String) :
    Token.startsWithKeyword (layout.tokens ++ after) text = false := by
  cases tokensEq : layout.tokens with
  | nil => simp [Layout.tokens] at tokensEq
  | cons token rest =>
      have kinds := valid.kinds token (by simp [tokensEq])
      rcases kinds with kind | kind <;> simp [Token.startsWithKeyword, Token.isKeyword, kind]

theorem noAttributes {after : List Token} (noParen : Token.startsWith after "(" = false) (count : Nat) :
    Token.attributesLength count (layout.tokens ++ after) = count := by
  have notMark := valid.not_punctuator
  cases tokensEq : layout.tokens with
  | nil => simp [Layout.tokens] at tokensEq
  | cons token rest =>
      rw [tokensEq] at notMark
      obtain ⟨first, others⟩ := List.forall_mem_cons.mp notMark
      rw [List.cons_append]
      apply Token.attributesLength_of_first (Token.not_isPunctuator first "[")
      have notParen : Token.startsWith (rest ++ after) "(" = false := by
        cases rest with
        | nil => exact noParen
        | cons next rest => exact Token.not_isPunctuator (List.forall_mem_cons.mp others).1 "("
      rw [notParen, Bool.and_false]

end NameChain.Layout.Valid

namespace Draft

variable (draft : Draft) (before : List Token) {keyword : Token} {layout : NameChain.Layout}
  {after : List Token}

theorem recordName_of_leaves (count : Nat) (chain : NameChain) (leaves : Token.LeavesName after) :
    recordName count chain after = (chain, count) := by
  rw [recordName, leaves.noAttributes 0]
  split
  next => rfl
  next candidate found =>
    rw [List.drop_zero] at found
    rw [Nat.zero_add, if_neg (by simp [leaves.notFurther candidate found])]

/-- The step mentions the name. -/
theorem step_elaborated (isKeyword : keyword.kind = .keyword)
    (elaborates : keyword.text ∈ ["class", "struct", "union", "enum"]) (valid : layout.Valid)
    (leaves : Token.LeavesName after) :
    draft.step before keyword (layout.tokens ++ after) =
      (draft.mention layout.chain .typeKeyword, layout.chain.size) := by
  have found := valid.read? leaves.noScope
  have noAttributes := valid.noAttributes leaves.noParen
  have behind : (layout.tokens ++ after).drop layout.chain.size = after := by
    rw [← valid.tokens_length, List.drop_left]
  obtain ⟨noBrace, noColon⟩ : Token.startsWith after "\x7b" = false ∧ Token.startsWith after ":" = false := by
    have noBody := leaves.noBody
    simp only [opensRecord, Bool.or_eq_false_iff] at noBody
    exact ⟨noBody.1.1.1, noBody.1.1.2⟩
  have asRecord : draft.stepRecord before (layout.tokens ++ after) =
      (draft.mention layout.chain .typeKeyword, layout.chain.size) := by
    simp only [stepRecord, noAttributes, List.drop_zero, found, Nat.zero_add, behind,
      recordName_of_leaves _ _ leaves, leaves.noAttributes, leaves.noEnd, leaves.noBody]
    simp
  have asEnumeration : draft.stepEnumeration (layout.tokens ++ after) =
      (draft.mention layout.chain .typeKeyword, layout.chain.size) := by
    simp only [stepEnumeration, valid.not_keyword, Bool.or_false, Bool.false_eq_true, if_false,
      List.drop_zero, noAttributes, found, Option.map_some, Option.getD_some, Nat.zero_add, behind,
      noBrace, noColon, leaves.noEnd]
  simp only [List.mem_cons, List.not_mem_nil, or_false] at elaborates
  rcases elaborates with text | text | text | text
  all_goals simp only [step, isKeyword, stepKeyword, text, asRecord, asEnumeration]

theorem Passes.of_elaborated (isKeyword : keyword.kind = .keyword)
    (elaborates : keyword.text ∈ ["class", "struct", "union", "enum"]) (valid : layout.Valid)
    (leaves : Token.LeavesName after) :
    draft.Passes before (keyword :: layout.tokens) after (draft.mention layout.chain .typeKeyword) := by
  have stepEq := draft.step_elaborated before isKeyword elaborates valid leaves
  have stride : Token.stride before keyword (layout.tokens ++ after) = layout.tokens.length := by
    rw [← step_stride draft, stepEq, valid.tokens_length]
  have noParen : ∀ token ∈ keyword :: layout.tokens, token.isParen = false := by
    rw [List.forall_mem_cons]
    refine ⟨by simp [Token.isParen, Token.isPunctuator, isKeyword], fun token member => ?_⟩
    simp [Token.isParen, Token.not_isPunctuator (valid.not_punctuator token member)]
  constructor
  case goes =>
    have stay := Goes.stay (draft.mention layout.chain .typeKeyword)
      ((keyword :: layout.tokens).reverse ++ before) after
    rw [List.cons_append]
    apply Goes.step
    rw [stride, List.take_left, List.drop_left, stepEq]
    simpa using stay
  case waits =>
    rw [Token.foldl_parensBehind noParen]
    exact ⟨rfl, rfl, rfl, List.suffix_refl _⟩
  case skeleton => rfl

end Draft

end Requalify
