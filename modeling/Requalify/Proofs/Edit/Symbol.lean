import Requalify.Proofs.Edit.Names
import Requalify.Proofs.Queries

/-!
The name in a node that names the declaration, and the qualifier in front of it. A chain is written with
tokens that stand one behind the other, and a node takes its places from them, so in each of its forms the
qualifier covers the names that are read as namespaces and ends in front of the next one.
-/

namespace Requalify

/-- The name of the declaration: a type that is written in front of a member, or else the last name. -/
def Node.symbol : Node → NameToken
  | .expression _ name => name
  | .typeUse written => written.name
  | .nested qualifier member => (qualifier.specifiers.getLast?.map (·.name)).getD member

namespace Environment

theorem nodeOf_symbol {mention : Mention} {specifiers : List Specifier} {left : List (NameToken × Span)}
    (kind : DeclarationKind) (parts : NameQualifier.places specifiers ++ left = mention.chain.qualifiers) :
    (nodeOf mention specifiers left kind).symbol =
      mention.chain.nameBehind (NameQualifier.places specifiers) := by
  have behind : mention.chain.nameBehind (NameQualifier.places specifiers) =
      (left.head?.map (·.1)).getD mention.chain.last := by
    rw [NameChain.nameBehind, ← parts, List.drop_left]
  rw [behind]
  cases left with
  | cons next rest =>
      obtain ⟨named, separator⟩ := next
      simp [nodeOf, Node.symbol]
  | nil =>
      obtain ⟨-, name, -⟩ := nodeOf_parts mention specifiers kind
      rw [← show (nodeOf mention specifiers [] kind).name = _ from name]
      simp only [nodeOf]
      split
      next => rfl
      next => rfl
      next => split <;> rfl

end Environment

namespace NameChain

/-- The places of the first names and of the separators in front of the next one. -/
def placesBefore (chain : NameChain) (passed : List (NameToken × Span)) : List Span :=
  chain.leading.toList ++ passed.flatMap fun pair => [pair.1.span, pair.2]

/-- The places of a chain in the order of the text. -/
def tokenSpans (chain : NameChain) : List Span :=
  chain.placesBefore chain.qualifiers ++ [chain.last.span]

theorem Spelled.tokenSpans {chain : NameChain} {front : List Token} {last : Token}
    (spelled : chain.Spelled front last) : chain.tokenSpans = (front ++ [last]).map Token.span := by
  obtain ⟨layout, -, rfl, rfl, rfl⟩ := spelled.layout
  obtain ⟨lead, pairs, last⟩ := layout
  cases lead <;>
    simp [NameChain.tokenSpans, placesBefore, Layout.chain, Layout.front, Token.name, List.map_flatMap,
      List.flatMap_map]

variable {chain : NameChain} {passed left : List (NameToken × Span)}

/-- Either the first names are all qualifiers and the last one stands behind them, or the next one does. -/
theorem nameBehind_cases (parts : passed ++ left = chain.qualifiers) :
    (left = [] ∧ chain.nameBehind passed = chain.last) ∨
      ∃ separator rest, left = (chain.nameBehind passed, separator) :: rest := by
  rw [nameBehind, ← parts, List.drop_left]
  cases left with
  | nil => exact .inl ⟨rfl, rfl⟩
  | cons pair rest => exact .inr ⟨pair.2, rest, rfl⟩

theorem names_passed (parts : passed ++ left = chain.qualifiers) :
    ∃ rest, chain.names = passed.map (·.1) ++ chain.nameBehind passed :: rest := by
  rcases nameBehind_cases parts with ⟨rfl, last⟩ | ⟨separator, rest, leftEq⟩
  · exact ⟨[], by rw [names, last, ← parts, List.append_nil]⟩
  · refine ⟨rest.map (·.1) ++ [chain.last], ?_⟩
    rw [names, ← parts, List.map_append, leftEq, List.map_cons, List.append_assoc, List.cons_append]

theorem tokenSpans_passed (parts : passed ++ left = chain.qualifiers) :
    ∃ rest, chain.tokenSpans = chain.placesBefore passed ++ (chain.nameBehind passed).span :: rest := by
  rcases nameBehind_cases parts with ⟨rfl, last⟩ | ⟨separator, rest, leftEq⟩
  · exact ⟨[], by rw [tokenSpans, last, ← parts, List.append_nil]⟩
  · refine ⟨separator :: (rest.flatMap fun pair => [pair.1.span, pair.2]) ++ [chain.last.span], ?_⟩
    rw [tokenSpans, placesBefore, ← parts, List.flatMap_append, leftEq, placesBefore]
    simp

theorem stopBehind_eq (chain : NameChain) (passed : List (NameToken × Span)) :
    chain.stopBehind passed = ((chain.placesBefore passed).getLast?.map (·.stop)).getD chain.start := by
  rw [stopBehind, placesBefore]
  rcases List.eq_nil_or_concat passed with rfl | ⟨others, pair, rfl⟩
  · cases chain.leading <;> rfl
  · simp

/-- The tokens of the chain stand one behind the other. -/
structure Ordered (chain : NameChain) : Prop where
  pairwise : chain.tokenSpans.Pairwise fun left right => left.stop ≤ right.start
  solid : ∀ span ∈ chain.tokenSpans, chain.start ≤ span.start ∧ span.start < span.stop

theorem Spelled.ordered {text : String} {print : Footprint}
    (spelled : chain.Spelled print.front print.last) (within : print.tokens <:+ tokenize text) :
    chain.Ordered := by
  have written : print.front ++ [print.last] <+: print.tokens := by
    exact ⟨print.behind, by simp [Footprint.tokens]⟩
  have start : chain.start = print.first.start := (Footprint.chain_span within spelled).1
  constructor
  · rw [spelled.tokenSpans]
    exact List.pairwise_map.mpr
      ((tokenize_pairwise text).sublist (written.sublist.trans within.sublist))
  · rw [spelled.tokenSpans, List.forall_mem_map, start]
    intro token isToken
    refine ⟨?_, ((tokenize_inOrder text).inText token (within.subset (written.subset isToken))).1⟩
    rcases List.mem_append.mp isToken with inFront | isLast
    · exact Footprint.first_start_le_of_mem within inFront
    · obtain rfl := List.mem_singleton.mp isLast
      exact Footprint.first_start_le within

namespace Ordered

variable (ordered : chain.Ordered) (parts : passed ++ left = chain.qualifiers)

include ordered parts

/-- The first names and their separators end in front of the next name. -/
theorem placesBefore_inside : chain.stopBehind passed ≤ (chain.nameBehind passed).span.start ∧
    ∀ span ∈ chain.placesBefore passed, chain.start ≤ span.start ∧ span.stop ≤ chain.stopBehind passed := by
  obtain ⟨rest, spans⟩ := tokenSpans_passed parts
  obtain ⟨pairwise, solid⟩ := ordered
  rw [spans] at pairwise solid
  obtain ⟨front, -, behind⟩ := List.pairwise_append.mp pairwise
  have name := solid (chain.nameBehind passed).span (by simp)
  rw [stopBehind_eq]
  rcases List.eq_nil_or_concat (chain.placesBefore passed) with nothing | ⟨others, last, concat⟩
  · rw [nothing]
    exact ⟨name.1, by simp⟩
  · rw [List.concat_eq_append] at concat
    rw [concat] at front behind solid ⊢
    rw [List.getLast?_concat, Option.map_some, Option.getD_some]
    refine ⟨behind last (by simp) _ List.mem_cons_self, fun span isSpan => ⟨(solid span ?_).1, ?_⟩⟩
    · exact List.mem_append_left _ isSpan
    · rcases List.mem_append.mp isSpan with inOthers | isLast
      · have apart := (List.pairwise_append.mp front).2.2 span inOthers last (by simp)
        exact Nat.le_trans apart last.start_le_stop
      · obtain rfl := List.mem_singleton.mp isLast
        exact Nat.le_refl _

theorem start_le_stopBehind : chain.start ≤ chain.stopBehind passed := by
  rw [stopBehind_eq]
  cases last : (chain.placesBefore passed).getLast? with
  | none => exact Nat.le_refl _
  | some span =>
      have inside := (ordered.placesBefore_inside parts).2 span (List.mem_of_getLast? last)
      exact Nat.le_trans inside.1 span.start_le_stop

end Ordered

theorem Ordered.nodup_names (ordered : chain.Ordered) : chain.names.Nodup := by
  obtain ⟨pairwise, solid⟩ := ordered
  have among : (chain.names.map (·.span)).Sublist chain.tokenSpans := by
    rw [names, tokenSpans, placesBefore, List.map_append]
    refine .append (.trans ?_ (List.sublist_append_right _ _)) (.refl _)
    induction chain.qualifiers with
    | nil => exact .slnil
    | cons pair rest ih => exact (ih.cons pair.2).cons_cons pair.1.span
  refine (List.pairwise_map.mp (pairwise.sublist among)).imp_of_mem ?_
  rintro left right isLeft - apart rfl
  have nonempty := (solid left.span (among.subset (List.mem_map_of_mem isLeft))).2
  omega

end NameChain

namespace Environment

/-- The node is made of the names in front of the one that names the declaration. -/
theorem resolve_symbol {environment : Environment} {mention : Mention} {resolved : Resolved}
    (located : environment.resolve mention = .found resolved) :
    ∃ passed left, passed ++ left = mention.chain.qualifiers ∧
      resolved.node.Qualifies mention.chain passed ∧
      resolved.node.symbol = mention.chain.nameBehind passed ∧
      resolved.node.symbol.text = resolved.declaration.name := by
  obtain ⟨parts, node⟩ := node_of_resolve located
  have plain : ∀ specifier ∈ (environment.reading mention).2.1, specifier.kind ≠ .ofType :=
    walk_kinds (by simp)
  have symbol : resolved.node.symbol =
      mention.chain.nameBehind (NameQualifier.places (environment.reading mention).2.1) :=
    node ▸ nodeOf_symbol resolved.declaration.kind parts
  refine ⟨NameQualifier.places (environment.reading mention).2.1, environment.unread mention, parts,
    node ▸ nodeOf_qualifies resolved.declaration.kind plain parts, symbol, ?_⟩
  rw [(findsAtHome_of_resolve located).1, sought, symbol, NameChain.nameBehind, ← parts,
    NameQualifier.places, List.drop_left]

/-- The qualifier of a node covers the names in front of the one that names the declaration, with their
separators, and ends in front of that one. -/
theorem qualifierSpan_exact {environment : Environment} {text : String} {mention : Mention}
    {resolved : Resolved} (member : mention ∈ (Outline.ofText text).mentions)
    (found : environment.resolve mention = .found resolved) :
    let node := resolved.node
    let chain := mention.chain
    (node.symbol ∈ chain.names ∧ node.symbol.text = resolved.declaration.name) ∧
    (node.start = chain.start ∧ chain.span.start ≤ node.span.start ∧ node.span.stop ≤ chain.span.stop) ∧
    ∀ count, chain.names[count]? = some node.symbol →
      node.namespaceNames = (chain.names.take count).map (·.text) ∧
      node.qualifierSpan.start = chain.start ∧
      node.qualifierSpan.stop = chain.stopBehind (chain.qualifiers.take count) ∧
      (∀ name ∈ chain.names.take count,
        node.qualifierSpan.start ≤ name.span.start ∧ name.span.stop ≤ node.qualifierSpan.stop) ∧
      node.qualifierSpan.stop ≤ node.symbol.span.start := by
  intro node chain
  have ordered : chain.Ordered := by
    obtain ⟨print, within, spelled⟩ := Outline.exists_print member
    exact spelled.ordered within
  obtain ⟨passed, left, parts, qualifies, symbol, isName⟩ := resolve_symbol found
  obtain ⟨rest, names⟩ := NameChain.names_passed parts
  refine ⟨⟨?_, isName⟩, ?_, fun count place => ?_⟩
  · rw [symbol, names]
    simp
  · have start : node.start = chain.start := (resolve_spells found).start
    have stop : node.stop ≤ chain.stop := by
      rw [Node.stop_eq_name]
      exact (Outline.name_inside member (resolve_name found)).2.2.1
    refine ⟨start, Nat.le_of_eq start.symm, ?_⟩
    change max node.start node.stop ≤ max chain.start chain.stop
    omega
  · -- The names are different tokens, so the declaration is named by the one behind the passed names.
    obtain rfl : count = passed.length := by
      refine (List.getElem?_inj (List.getElem?_eq_some_iff.mp place).1 ordered.nodup_names).mp ?_
      rw [place, symbol, names]
      simp
    have first : chain.names.take passed.length = passed.map (·.1) := by
      rw [names, ← List.length_map (·.1), List.take_left]
    have qualifiers : chain.qualifiers.take passed.length = passed := by
      rw [← parts, List.take_left]
    have inOrder := ordered.start_le_stopBehind parts
    obtain ⟨ends, inside⟩ := ordered.placesBefore_inside parts
    rw [qualifies.span, Span.between_of_le inOrder, qualifies.names, first, qualifiers, symbol]
    refine ⟨by rw [List.map_map]; rfl, rfl, rfl, fun name isBefore => ?_, ends⟩
    obtain ⟨pair, isPassed, rfl⟩ := List.mem_map.mp isBefore
    exact inside pair.1.span
      (List.mem_append_right _ (List.mem_flatMap.mpr ⟨pair, isPassed, List.mem_cons_self⟩))

set_option maxRecDepth 100000 in
theorem qualifierSpan_exact_member :
    let outline := Outline.ofText "namespace a \x7b struct T; \x7d int k = ::a::T::x;"
    let environment := Environment.ofOutline outline (Catalog.empty.add outline false)
    let chain : NameChain := ⟨some ⟨34, 36, by decide⟩,
      [(⟨"a", ⟨36, 37, by decide⟩⟩, ⟨37, 39, by decide⟩), (⟨"T", ⟨39, 40, by decide⟩⟩, ⟨40, 42, by decide⟩)],
      ⟨"x", ⟨42, 43, by decide⟩⟩⟩
    ∃ mention ∈ outline.mentions, mention.chain = chain ∧
      ∃ resolved, environment.resolve mention = .found resolved ∧
        resolved.node.symbol = ⟨"T", ⟨39, 40, by decide⟩⟩ ∧
        resolved.node.namespaceNames = ["a"] ∧ resolved.node.qualifierSpan = ⟨34, 39, by decide⟩ := by
  intro outline environment chain
  let node : Node := .nested ⟨chain.leading,
    [⟨⟨"a", ⟨36, 37, by decide⟩⟩, ⟨37, 39, by decide⟩, .ofNamespace⟩,
      ⟨⟨"T", ⟨39, 40, by decide⟩⟩, ⟨40, 42, by decide⟩, .ofType⟩]⟩ chain.last
  have member : ⟨chain, 0, .plain⟩ ∈ outline.mentions := by decide +kernel
  have found : environment.resolve ⟨chain, 0, .plain⟩ =
      .found ⟨⟨"T", ⟨["a"]⟩, .record⟩, false, node⟩ := by decide +kernel
  obtain ⟨-, -, span⟩ := qualifierSpan_exact member found
  obtain ⟨names, start, stop, -, -⟩ := span 1 rfl
  exact ⟨_, member, rfl, _, found, rfl, names, Span.ext start stop⟩

end Environment

end Requalify
