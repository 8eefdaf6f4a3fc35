import Requalify.Proofs.Edit.Qualified
import Requalify.Proofs.Outline.Laminar

/-!
Asking about one place of a source. The chains of the mentions do not overlap, a node stays in the chain of its
mention, and a mention stands in the innermost scope around it, so what is found at an offset of a match is
what the analysis of the whole source reports there.
-/

namespace Requalify

theorem Footprint.first_start_le_of_mem {text : String} {print : Footprint}
    (within : print.tokens <:+ tokenize text) {token : Token} (member : token ∈ print.front) :
    print.first.start ≤ token.start := by
  have ordered := (tokenize_pairwise text).sublist within.sublist
  obtain ⟨rest, tokens⟩ := print.tokens_eq_cons
  have inTokens : token ∈ print.tokens := List.mem_append_left _ member
  rw [tokens] at ordered inTokens
  rcases List.mem_cons.mp inTokens with rfl | behind
  · exact Nat.le_refl _
  · exact Nat.le_trans (Nat.le_add_right _ _) ((List.pairwise_cons.mp ordered).1 token behind)

namespace Outline

variable {text : String} {mention : Mention}

/-- A mention is written with tokens of the text. -/
theorem exists_print (member : mention ∈ (ofText text).mentions) :
    ∃ print : Footprint, print.tokens <:+ tokenize text ∧
      mention.chain.Spelled print.front print.last := by
  obtain ⟨log, trail⟩ := ofText_trail text
  obtain ⟨print, inLog, landmark⟩ := List.mem_map.mp
    (trail.mentions.subset (List.mem_map_of_mem (f := Landmark.mention) member))
  have describes := (trail.valid print inLog).describes
  rw [landmark] at describes
  exact ⟨print, trail.within print inLog, describes⟩

/-- Every name of a mention is a token in its chain. -/
theorem name_inside (member : mention ∈ (ofText text).mentions) {name : NameToken}
    (isName : name ∈ mention.chain.names) :
    mention.chain.start ≤ name.span.start ∧ name.span.start < name.span.stop ∧
      name.span.stop ≤ mention.chain.stop ∧ mention.chain.stop ≤ Text.byteLength text.toList := by
  obtain ⟨print, within, spelled⟩ := exists_print member
  have start : mention.chain.start = print.first.start := (Footprint.chain_span within spelled).1
  have stop : mention.chain.stop = print.last.stop := congrArg (·.span.stop) spelled.name
  have last := (tokenize_inOrder text).inText print.last (within.subset (by simp [Footprint.tokens]))
  obtain ⟨layout, -, chain, front, lastEq⟩ := spelled.layout
  rw [NameChain.names, List.mem_append, List.mem_singleton] at isName
  rcases isName with inFront | rfl
  · rw [← chain] at inFront
    simp only [NameChain.Layout.chain, List.map_map, List.mem_map] at inFront
    obtain ⟨pair, inPairs, rfl⟩ := inFront
    have token : pair.1 ∈ print.front := by
      rw [← front]
      exact List.mem_append_right _ (List.mem_flatMap.mpr ⟨pair, inPairs, by simp⟩)
    have inText := (tokenize_inOrder text).inText pair.1
      (within.subset (List.mem_append_left _ token))
    have before := Footprint.front_stop_le within token
    have begins : print.first.start ≤ pair.1.start := Footprint.first_start_le_of_mem within token
    exact ⟨start ▸ begins, inText.1, by change pair.1.stop ≤ _; omega, stop ▸ last.2⟩
  · have begins := Footprint.first_start_le within
    rw [start, stop, spelled.name]
    exact ⟨begins, last.1, Nat.le_refl _, last.2⟩

/-- Among mentions of a text an offset picks at most one. -/
theorem find?_mention (member : mention ∈ (ofText text).mentions) {offset : Nat}
    (inside : mention.chain.span.Contains offset) :
    (ofText text).mentions.find? (·.chain.span.Contains offset) = some mention := by
  cases found : (ofText text).mentions.find? (·.chain.span.Contains offset) with
  | none =>
      have outside := List.find?_eq_none.mp found mention member
      exact absurd inside (by simpa using outside)
  | some other =>
      have otherInside : other.chain.span.Contains offset := by simpa using List.find?_some found
      have apart : (ofText text).mentions.Pairwise fun left right =>
          ¬(left.chain.span.Contains offset ∧ right.chain.span.Contains offset) := by
        refine (mentions_ordered text).imp fun {left right} ordered => ?_
        rintro ⟨inLeft, inRight⟩
        exact Nat.lt_irrefl _
          (Nat.lt_of_lt_of_le inLeft.2 (Nat.le_trans ordered inRight.1))
      have symmetric : Std.Symm fun left right : Mention =>
          ¬(left.chain.span.Contains offset ∧ right.chain.span.Contains offset) :=
        ⟨fun _ _ different both => different both.symm⟩
      by_contra different
      exact apart.forall (List.mem_of_find?_eq_some found) member (fun same => different (same ▸ rfl))
        ⟨otherInside, inside⟩

end Outline

theorem Node.stop_eq_name (node : Node) : node.stop = node.name.span.stop := by
  cases node <;> rfl

namespace Environment

/-- A node ends with a name of its chain. -/
theorem nodeOf_name {mention : Mention} {specifiers : List Specifier}
    {left : List (NameToken × Span)} (kind : DeclarationKind)
    (parts : (specifiers.map fun specifier => (specifier.name, specifier.separator)) ++ left =
      mention.chain.qualifiers) : (nodeOf mention specifiers left kind).name ∈ mention.chain.names := by
  have last : mention.chain.last ∈ mention.chain.names := List.mem_append_right _ (by simp)
  cases left with
  | cons first rest =>
      cases rest with
      | nil => exact last
      | cons next others =>
          refine List.mem_append_left _ (List.mem_map.mpr ⟨next, ?_, rfl⟩)
          rw [← parts]
          simp
  | nil =>
      obtain ⟨-, name, -⟩ := nodeOf_parts mention specifiers kind
      exact name ▸ last

theorem resolve_name {environment : Environment} {mention : Mention} {resolved : Resolved}
    (found : environment.resolve mention = .found resolved) :
    resolved.node.name ∈ mention.chain.names := by
  obtain ⟨parts, node⟩ := node_of_resolve found
  exact node ▸ nodeOf_name resolved.declaration.kind parts

/-- The node of a mention of a text is a part of its chain that begins where the chain does. -/
theorem resolve_inside {environment : Environment} {text : String} {mention : Mention}
    {resolved : Resolved} (member : mention ∈ (Outline.ofText text).mentions)
    (found : environment.resolve mention = .found resolved) :
    resolved.node.start = mention.chain.start ∧ resolved.node.span.isEmpty = false ∧
      ∀ offset, resolved.node.span.Contains offset → mention.chain.span.Contains offset := by
  have start : resolved.node.start = mention.chain.start := (resolve_spells found).start
  have inside := Outline.name_inside member (resolve_name found)
  rw [← Node.stop_eq_name] at inside
  refine ⟨start, ?_, fun offset contains => ?_⟩
  · rw [Span.isEmpty, beq_eq_false_iff_ne]
    simp only [Node.span, Span.between, start]
    omega
  · simp only [Span.Contains, Node.span, NameChain.span, Span.between] at contains ⊢
    omega

end Environment

namespace Codebase

variable {codebase : Codebase} {source : Source}

/-- Every outline that is kept is that of a text. -/
def Outlined (codebase : Codebase) : Prop :=
  ∀ entry ∈ codebase.outlines, ∃ text, entry.2 = Outline.ofText text

theorem Outlined.addSource (outlined : codebase.Outlined) (headerExtensions : List String)
    (source : Source) : (codebase.addSource headerExtensions source).Outlined := by
  intro entry member
  rcases List.mem_cons.mp member with rfl | kept
  · exact ⟨source.text, rfl⟩
  · exact outlined entry kept

theorem ofSources_outlined (headers headerExtensions : List String) (sources : List Source) :
    (ofSources headers headerExtensions sources).Outlined := by
  have all (codebase : Codebase) (outlined : codebase.Outlined) :
      (sources.foldl (Codebase.addSource headerExtensions) codebase).Outlined := by
    induction sources generalizing codebase with
    | nil => exact outlined
    | cons source rest ih => exact ih _ (outlined.addSource headerExtensions source)
  exact all _ fun entry member => absurd member List.not_mem_nil

theorem Outlined.outline (outlined : codebase.Outlined) (source : Source) :
    ∃ text, codebase.outline source = Outline.ofText text := by
  unfold Codebase.outline
  cases kept : codebase.outlines.lookup source.path.components with
  | none => exact ⟨source.text, rfl⟩
  | some outline =>
      obtain ⟨front, back, parts, -⟩ := List.lookup_eq_some_iff.mp kept
      exact outlined (source.path.components, outline) (by rw [parts]; simp)

theorem environment_outline (codebase : Codebase) (source : Source) :
    (codebase.environment source).outline = codebase.outline source :=
  Environment.ofOutline_outline _ _

/-- What is reported, of either sort, is what some mention of the file resolves to. -/
theorem exists_found {item : Nat × Resolved}
    (member : item ∈ (codebase.environment source).outline.mentions.filterMap fun mention =>
      match (codebase.environment source).resolve mention with
      | .found resolved => some (mention.scope, resolved)
      | _ => none) :
    ∃ mention ∈ (codebase.outline source).mentions, mention.scope = item.1 ∧
      (codebase.environment source).resolve mention = .found item.2 := by
  obtain ⟨mention, inMentions, chosen⟩ := List.mem_filterMap.mp member
  rw [environment_outline] at inMentions
  split at chosen
  next resolved found =>
    obtain rfl := Option.some.inj chosen
    exact ⟨mention, inMentions, rfl, found⟩
  next => simp at chosen

/-- What is found anywhere in the node of a mention, and the context there. -/
theorem Outlined.queries (outlined : codebase.Outlined) {mention : Mention} {resolved : Resolved}
    (member : mention ∈ (codebase.outline source).mentions)
    (found : (codebase.environment source).resolve mention = .found resolved) :
    resolved.node.span.isEmpty = false ∧
      (∀ offset, resolved.node.span.Contains offset →
        codebase.declarationAt source offset = some resolved.declaration) ∧
      codebase.contextAt source resolved.node.start =
        (codebase.outline source).contextOf mention.scope := by
  obtain ⟨text, isText⟩ := outlined.outline source
  rw [isText] at member
  obtain ⟨start, nonempty, inside⟩ := Environment.resolve_inside member found
  refine ⟨nonempty, fun offset contains => ?_, ?_⟩
  · have picked := Outline.find?_mention member (inside offset contains)
    rw [declarationAt, environment_outline, isText]
    simp only [picked, found]
  · have inText : mention.chain.start ≤ Text.byteLength text.toList := by
      have bounds := Outline.name_inside member (Environment.resolve_name found)
      omega
    rw [contextAt, start, isText, Outline.ofText_scopeAt_mention member inText]

/-- What the analysis reports in a source is found again at every offset of it. -/
theorem queries_agree (headers headerExtensions : List String) (sources : List Source)
    (source : Source) :
    let codebase := ofSources headers headerExtensions sources
    (∀ reference ∈ (codebase.analyze source).references,
      reference.node.span.isEmpty = false ∧
      (∀ offset, reference.node.span.Contains offset →
        codebase.declarationAt source offset = some reference.declaration) ∧
      codebase.contextAt source reference.node.start = reference.context) ∧
    ∀ reference ∈ (codebase.analyze source).anonymousReferences,
      reference.node.span.isEmpty = false ∧
      ∀ offset, reference.node.span.Contains offset →
        codebase.declarationAt source offset = some reference.declaration := by
  intro codebase
  have outlined : codebase.Outlined := ofSources_outlined headers headerExtensions sources
  refine ⟨fun reference member => ?_, fun reference member => ?_⟩
  · obtain ⟨⟨scope, resolved⟩, item, chosen⟩ := List.mem_filterMap.mp member
    obtain ⟨mention, inMentions, rfl, found⟩ := exists_found item
    dsimp only at chosen found
    split at chosen
    next => simp at chosen
    next =>
      obtain rfl := Option.some.inj chosen
      rw [environment_outline]
      exact outlined.queries inMentions found
  · obtain ⟨⟨scope, resolved⟩, item, chosen⟩ := List.mem_filterMap.mp member
    obtain ⟨mention, inMentions, rfl, found⟩ := exists_found item
    dsimp only at chosen found
    split at chosen
    next =>
      obtain rfl := Option.some.inj chosen
      obtain ⟨nonempty, declared, -⟩ := outlined.queries inMentions found
      exact ⟨nonempty, declared⟩
    next => simp at chosen

set_option maxRecDepth 100000 in
theorem queries_agree_nested :
    let source : Source := ⟨⟨"/p/a.cpp"⟩, "a.cpp",
      "namespace n \x7b int z; int w = z; namespace \x7b int h; \x7d \x7d int k = n::h;"⟩
    let codebase := ofSources [] [] [source]
    codebase.declarationAt source 29 = some ⟨"z", ⟨["n"]⟩, .variable⟩ ∧
      codebase.contextAt source 29 = some ⟨["n"]⟩ ∧
      codebase.declarationAt source 64 = some ⟨"h", ⟨["n"]⟩, .variable⟩ := by
  intro source codebase
  obtain ⟨named, hidden⟩ := queries_agree [] [] [source] source
  obtain ⟨-, declared, context⟩ := named ⟨.expression none ⟨"z", ⟨29, 30, by decide⟩⟩,
    ⟨"z", ⟨["n"]⟩, .variable⟩, some ⟨["n"]⟩⟩ (by decide +kernel)
  obtain ⟨-, anonymous⟩ := hidden ⟨.expression
    (some ⟨none, [⟨⟨"n", ⟨63, 64, by decide⟩⟩, ⟨64, 66, by decide⟩, .ofNamespace⟩]⟩)
    ⟨"h", ⟨66, 67, by decide⟩⟩, ⟨"h", ⟨["n"]⟩, .variable⟩⟩ (by decide +kernel)
  exact ⟨declared 29 (by decide), context, anonymous 64 (by decide)⟩

end Codebase

end Requalify
